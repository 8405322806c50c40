import Mathlib
import ParticlePatterns.Proofs.Field.Ages
import ParticlePatterns.Proofs.Pattern.Bodies

/-!
# Ticks come to an end

Children that are emitted in a tick have their turn in the same tick, and may emit again. Their
emissions lie less deep within each other than those of their parent, so a turn replaces the
depth of one particle by any number of smaller ones, and this cannot go on for ever. A tick ends
when nobody is left without a turn, or in the fault of one of the turns. As long as no age is
infinite no window is refused, so that a turn has nothing to fail at but the bodies it draws from.
-/

set_option autoImplicit false

namespace ParticlePatterns

open Exact (real)

variable {α : Type}

section Ranks

variable {S T : Type} {R : S → T → Prop} {s : Multiset S}

theorem exists_ranks (h : ∀ a ∈ s, ∃ b, R a b) : ∃ t, Multiset.Rel R s t := by
  induction s using Multiset.induction with
  | empty => exact ⟨0, .zero⟩
  | cons a s ih =>
    obtain ⟨b, hb⟩ := h a (Multiset.mem_cons_self a s)
    obtain ⟨t, ht⟩ := ih fun c hc => h c (Multiset.mem_cons_of_mem hc)
    exact ⟨b ::ₘ t, .cons hb ht⟩

theorem ranked_mem {t : Multiset T} (h : Multiset.Rel R s t) {b : T} (hb : b ∈ t) :
    ∃ a ∈ s, R a b :=
  Multiset.exists_mem_of_rel_of_mem (Multiset.rel_flip.2 h) hb

end Ranks

section Depths

variable [Scalar α] {flaw : Fault α → Prop}

theorem Behavior.Pristine.contained {b : Behavior α} {depth : ℕ∞} (hb : b.Pristine flaw)
    (h : b.Lawful (fun _ => True) depth) : b.Lawful (Gen.Contained flaw) depth := by
  induction h with
  | leaf => exact .leaf
  | emit _ room _ ih =>
    cases hb with
    | emit _ _ made failed => exact .emit failed room fun b hb => ih b hb (made b hb)
  | chain _ _ _ ih =>
    cases hb with
    | body _ made failed =>
      refine .chain ?_ (fun b hb => ih b hb ?_) (by simp)
      · rintro _ _ _ ⟨⟩
        exact failed
      · obtain ⟨r, after, hb⟩ := hb
        exact made b ⟨_, r, after, hb⟩
    | sequence _ parts =>
      exact .chain (by rintro _ _ _ ⟨⟩) (fun b hb => ih b hb (parts b hb)) (by simp)
  | parallel _ ih =>
    cases hb with
    | together _ _ parts => exact .parallel fun p hp => ih p hp (parts p hp)

/-- Emissions lie no deeper within each other than in the program. -/
theorem Program.contained {p : Program α} {gen : Gen α (Behavior α)} (h : p.compile = .ok gen)
    {b : Behavior α} (hb : gen.Gives b) (pristine : b.Pristine flaw) :
    b.Lawful (Gen.Contained flaw) p.emissions :=
  pristine.contained ((p.compile_makes Gen.lawlike_trivial (fun _ _ _ => trivial) h).gives b hb)

variable {dt : α} {law : Gen α (Behavior α) → Prop}

def Particle.Within (law : Gen α (Behavior α) → Prop) (p : Particle α) (depth : ℕ) : Prop :=
  p.Lawful law depth

/-- All that comes out of a turn is less deep than the particle whose turn it was. -/
theorem Particle.Within.exists_below {p : Particle α} {n : ℕ} (h : p.Within law n) {r : Rng}
    {leftover : α} {behavior : Option (Behavior α)} {stage : Stage α}
    (hd : p.drive dt r = .ok (leftover, behavior, stage)) :
    ∃ ranks : Multiset ℕ, (∀ m ∈ ranks, m < n) ∧
      Multiset.Rel (Particle.Within law) stage.emitted.toList ranks := by
  obtain ⟨-, emitted⟩ := Particle.Lawful.of_drive h hd
  have each : ∀ q ∈ (stage.emitted.toList : Multiset (Particle α)),
      ∃ m : ℕ, m < n ∧ q.Within law m := by
    intro q hq
    obtain ⟨below, room, lawful⟩ := emitted q (Array.mem_toList_iff.1 hq)
    have finite : below ≠ ⊤ := by
      rintro rfl
      simp at room
    obtain ⟨m, rfl⟩ := ENat.ne_top_iff_exists.1 finite
    exact ⟨m, by exact_mod_cast room, lawful⟩
  obtain ⟨ranks, hranks⟩ := exists_ranks each
  refine ⟨ranks, fun m hm => ?_, hranks.mono fun _ _ _ _ both => both.2⟩
  obtain ⟨q, -, lower, -⟩ := ranked_mem hranks hm
  exact lower

theorem Particle.Within.keeps :
    Scan.Keeps dt fun p => ∃ depth, p.Within law depth := by
  rintro p r leftover behavior stage ⟨depth, within⟩ hd
  obtain ⟨ranks, -, born⟩ := within.exists_below hd
  refine ⟨fun _ => ⟨depth, (Particle.Lawful.of_drive within hd).1 _⟩, fun q hq => ?_⟩
  obtain ⟨below, -, hq⟩ := Multiset.exists_mem_of_rel_of_mem born (Array.mem_toList_iff.2 hq)
  exact ⟨below, hq⟩

/-- The depths of those who are still to have their turn go down with every turn. -/
theorem Scan.exists_end (ranks : Multiset ℕ) : ∀ s : Scan α,
    Multiset.Rel (Particle.Within law) s.pending ranks →
    ∃ turns, EndsIn (fun t => t.pending = 0) (Fault.Excused law) (run dt turns s) := by
  have descends : WellFounded (Relation.CutExpand fun m n : ℕ => m < n) :=
    wellFounded_lt.cutExpand
  induction ranks using descends.induction with
  | _ ranks ih =>
    intro s h
    cases hp : s.particles[s.index]? with
    | none =>
      refine ⟨1, ?_⟩
      rw [run_over (step_over hp)]
      exact pending_of_none hp
    | some p =>
      cases hd : p.drive dt s.rng with
      | error fault =>
        refine ⟨1, ?_⟩
        rw [run_error (step_error hp hd)]
        obtain ⟨n, -, lawful⟩ := Multiset.exists_mem_of_rel_of_mem h (mem_pending hp)
        exact Particle.Lawful.excused_of_drive lawful hd
      | ok turn =>
        obtain ⟨t, rest, hstep, -, before, after, -⟩ := exists_step hp hd
        rw [before, Multiset.rel_cons_left] at h
        obtain ⟨n, others, lawful, hrest, rfl⟩ := h
        obtain ⟨lower, below, born⟩ := lawful.exists_below hd
        have cut : Relation.CutExpand (fun m n : ℕ => m < n) (others + lower) (n ::ₘ others) := by
          refine ⟨lower, n, below, ?_⟩
          rw [← Multiset.singleton_add]
          ac_rfl
        obtain ⟨turns, ends⟩ := ih _ cut t (by rw [after]; exact hrest.add born)
        exact ⟨turns + 1, by rwa [run_more hstep]⟩

end Depths

section Played

variable [Scalar α]

def Gen.Compiled (g : Gen α (Behavior α)) : Prop :=
  ∃ p : Program α, p.compile = .ok g

def Gen.From (programs : Program α → Prop) (g : Gen α (Behavior α)) : Prop :=
  ∃ p, programs p ∧ p.compile = .ok g

def Batch.Asked (programs : Program α → Prop) (batch : Batch) : Prop :=
  ∃ p, programs p ∧ (Term.list p).Asks batch

def Gen.Sparing (flaw : Fault α → Prop) (g : Gen α (Behavior α)) : Prop :=
  g.Yields (Behavior.Pristine flaw) flaw

section Sources

variable [Scalar.Signed α] {programs : Program α → Prop} {g : Gen α (Behavior α)}

omit [Scalar.Signed α] in
theorem Gen.From.compiled (h : g.From programs) : g.Compiled := by
  obtain ⟨p, -, hp⟩ := h
  exact ⟨p, hp⟩

theorem Gen.From.sparing {flaw : Fault α → Prop} (h : g.From programs)
    (excess : ∀ fault, Fault.OfExcess (Batch.Asked programs) fault → flaw fault) :
    g.Sparing flaw := by
  obtain ⟨p, listed, hp⟩ := h
  refine p.compile_yields ?_ hp
  rintro fault ⟨batch, asks, refused⟩
  exact excess fault ⟨batch, ⟨p, listed, asks⟩, refused⟩

omit [Scalar.Signed α] in
theorem Fault.not_ofExcess (room : ∀ batch, Batch.Asked programs batch → batch.Fits)
    (fault : Fault α) : ¬fault.OfExcess (Batch.Asked programs) := by
  rintro ⟨batch, asked, crowded, -⟩
  exact crowded (room batch asked)

/-- Where all batches that are asked for fit there is nothing to fail at. -/
theorem Gen.From.sparing_of_fits (h : g.From programs)
    (room : ∀ batch, Batch.Asked programs batch → batch.Fits) : g.Sparing fun _ => False :=
  h.sparing (Fault.not_ofExcess room)

end Sources

inductive Field.Played (pattern : Gen α (Behavior α) → Prop) (time : α → Prop) : Field α → Prop
  | empty {settings : Settings} : Played pattern time (empty settings)
  | spawn {f g : Field α} {gen : Gen α (Behavior α)} : Played pattern time f → pattern gen →
      f.spawn gen = .ok g → Played pattern time g
  | update {f g : Field α} {dt : α} {turns : ℕ} : Played pattern time f → time dt →
      f.updateWithin turns dt = .ok g → Played pattern time g
  | clear {f : Field α} : Played pattern time f → Played pattern time f.clear

def Field.Exhausts (f : Field α) (dt : α) (steps : Nat) : Prop :=
  ∃ s, Scan.run dt steps ⟨0, f.particles, f.rng⟩ = .ok s ∧ s.particles.size ≤ s.index

def Field.Fails (f : Field α) (dt : α) (steps : Nat) (fault : Fault α) : Prop :=
  Scan.run dt steps ⟨0, f.particles, f.rng⟩ = .error fault

def Field.Ends (f : Field α) (dt : α) (reason : Fault α → Prop) : Prop :=
  ∃ steps, f.Exhausts dt steps ∨ ∃ fault, f.Fails dt steps fault ∧ reason fault

namespace Field

variable {f g : Field α} {dt : α}

theorem Played.mono {pattern pattern' : Gen α (Behavior α) → Prop} {time time' : α → Prop}
    (h : f.Played pattern time) (hp : ∀ gen, pattern gen → pattern' gen)
    (ht : ∀ dt, time dt → time' dt) : f.Played pattern' time' := by
  induction h with
  | empty => exact .empty
  | spawn _ made hs ih => exact .spawn ih (hp _ made) hs
  | update _ admitted hu ih => exact .update ih (ht _ admitted) hu
  | clear _ ih => exact .clear ih

variable {pattern : Gen α (Behavior α) → Prop} {flaw : Fault α → Prop} {time : α → Prop}

/-- What holds of all that is generated, and is kept by every turn, holds of every particle. -/
theorem Played.forall_particles {good : Particle α → Prop} (h : f.Played pattern time)
    (made : ∀ gen, pattern gen → ∀ b, gen.Gives b → good (.ofBehavior b))
    (keeps : ∀ dt, time dt → 0 < dt → Scan.Keeps dt good) : ∀ p ∈ f.particles, good p := by
  induction h with
  | empty => simp [Field.empty]
  | clear => simp [Field.clear]
  | spawn _ source hs ih => exact spawn_keeps ih (made _ source) hs
  | update _ admitted hu ih => exact updateWithin_keeps ih (keeps _ admitted) hu

theorem Played.sparing [Scalar.Signed α] {programs : Program α → Prop}
    (h : f.Played (Gen.From programs) time)
    (excess : ∀ fault, Fault.OfExcess (Batch.Asked programs) fault → flaw fault) :
    f.Played (fun gen => gen.Compiled ∧ gen.Sparing flaw) time :=
  h.mono (fun _ made => ⟨made.compiled, made.sparing excess⟩) fun _ admitted => admitted

theorem Played.within (h : f.Played (fun gen => gen.Compiled ∧ gen.Sparing flaw) time) :
    ∀ p ∈ f.particles, ∃ depth, p.Within (Gen.Contained flaw) depth := by
  refine h.forall_particles ?_ fun _ _ _ => Particle.Within.keeps
  rintro gen ⟨⟨p, hp⟩, sparing⟩ b hb
  exact ⟨p.emissions, fun c hc => Option.some.inj hc ▸
    Program.contained hp hb (sparing.value b hb)⟩

/-- A tick ends, although its particles go on emitting while it lasts. -/
theorem Played.ends (h : f.Played (fun gen => gen.Compiled ∧ gen.Sparing flaw) time)
    (dt : α) : f.Ends dt fun fault => fault.OfWindow ∨ flaw fault := by
  have pending : ∀ p ∈ Scan.pending ⟨0, f.particles, f.rng⟩,
      ∃ depth, p.Within (Gen.Contained flaw) depth := by
    rw [Scan.pending_start]
    exact fun p hp => h.within p (Array.mem_toList_iff.1 hp)
  obtain ⟨ranks, ranked⟩ := exists_ranks pending
  obtain ⟨steps, ends⟩ : ∃ steps, EndsIn _ _ (Scan.run dt steps _) :=
    Scan.exists_end ranks _ ranked
  refine ⟨steps, ?_⟩
  cases run : Scan.run dt steps ⟨0, f.particles, f.rng⟩ with
  | ok s =>
    rw [run] at ends
    exact .inl ⟨s, run, Scan.pending_eq_zero.1 ends⟩
  | error fault =>
    rw [run] at ends
    exact .inr ⟨fault, run, ends.imp_right fun ⟨_, contained, failed⟩ => contained _ failed⟩

/-- A tick does not go on for ever, so its faults are those it meets while it lasts. -/
theorem Played.ends_of_faults (h : f.Played (fun gen => gen.Compiled ∧ gen.Sparing flaw) time)
    {reason : Fault α → Prop} (allowed : ∀ fault, flaw fault → reason fault)
    (faults : ∀ steps fault, f.Fails dt steps fault → fault = .unfinished ∨ reason fault) :
    f.Ends dt reason := by
  obtain ⟨steps, all | ⟨fault, failed, met⟩⟩ := h.ends dt
  · exact ⟨steps, .inl all⟩
  · refine ⟨steps, .inr ⟨fault, failed, ?_⟩⟩
    obtain rfl | met' := faults steps fault failed
    · exact met.elim (fun window => by cases window) (allowed _)
    · exact met'

theorem Ends.mono {reason reason' : Fault α → Prop} (h : f.Ends dt reason)
    (hr : ∀ fault, reason fault → reason' fault) : f.Ends dt reason' := by
  obtain ⟨steps, all | ⟨fault, failed, met⟩⟩ := h
  · exact ⟨steps, .inl all⟩
  · exact ⟨steps, .inr ⟨fault, failed, hr fault met⟩⟩

theorem Ends.exhausts (h : f.Ends dt fun _ => False) : ∃ steps, f.Exhausts dt steps := by
  obtain ⟨steps, all | ⟨_, _, none⟩⟩ := h
  · exact ⟨steps, all⟩
  · exact none.elim

end Field

end Played

/-! As long as no age is infinite no window is refused. -/

section Drivable

open Scalar (IsFinite)

variable [Scalar α] [Scalar.Rounded α] {flaw : Fault α → Prop} {dt : α}

theorem Particle.drivable_of_gives {gen : Gen α (Behavior α)} {b : Behavior α}
    (sparing : gen.Sparing flaw) (hb : gen.Gives b) : (ofBehavior b).Drivable flaw :=
  (fresh_ofBehavior (sparing.value b hb)).drivable

theorem Particle.Drivable.keeps (positive : 0 < dt)
    (closed : ∀ age : α, 0 ≤ age → IsFinite age → IsFinite (age + dt)) :
    Scan.Keeps dt (Drivable flaw) := by
  intro p r leftover behavior stage drivable hd
  obtain ⟨goes, born⟩ := drivable.of_drive positive hd
  exact ⟨fun negative => goes negative (closed _ drivable.nonneg drivable.finite) _,
    fun q hq => (born q hq).drivable⟩

namespace Field

variable {f : Field α} {time : α → Prop}

def FiniteAges {α : Type} [Scalar α] (f : Field α) : Prop :=
  ∀ p ∈ f.particles, IsFinite p.lifeTime

theorem Played.lasting (h : f.Played (fun gen => gen.Compiled ∧ gen.Sparing flaw) time) :
    ∀ p ∈ f.particles, p.Lasting flaw :=
  h.forall_particles (fun _ made _ hb => .inl (Particle.drivable_of_gives made.2 hb))
    fun _ _ => Particle.Lasting.keeps

theorem Played.drivable (h : f.Played (fun gen => gen.Compiled ∧ gen.Sparing flaw) time)
    (closed : ∀ age dt : α, 0 ≤ age → IsFinite age → 0 < dt → time dt → IsFinite (age + dt)) :
    ∀ p ∈ f.particles, p.Drivable flaw :=
  h.forall_particles (fun _ made _ hb => Particle.drivable_of_gives made.2 hb)
    fun _ admitted positive => Particle.Drivable.keeps positive fun age nonneg finite =>
      closed age _ nonneg finite positive admitted

/-- A tick of any length has no faults but those of the bodies. -/
theorem Played.ends_of_finiteAges
    (h : f.Played (fun gen => gen.Compiled ∧ gen.Sparing flaw) time) (young : f.FiniteAges)
    (positive : 0 < dt) : f.Ends dt flaw := by
  have drivable : ∀ p ∈ f.particles, p.Drivable flaw :=
    fun p hp => (h.lasting p hp).drivable (young p hp)
  exact h.ends_of_faults (fun _ => id) fun steps fault =>
    (Particle.Drivable.settles positive).fault_of_run
      (fun p r fault drivable hd => drivable.fault_of_drive positive hd) steps
      (by simpa [Scan.pending_start] using drivable) (by simp [Scan.done_start])

end Field

end Drivable

namespace Field

/-- With exact numbers and finite times the only faults are those of the bodies. -/
theorem Played.ends_sparing {f : Field Exact} {flaw : Fault Exact → Prop} {dt : Exact}
    (h : f.Played (fun gen => gen.Compiled ∧ gen.Sparing flaw) Scalar.IsFinite)
    (positive : 0 < dt) : f.Ends dt flaw :=
  h.ends_of_finiteAges (fun p hp => (h.drivable
    (fun _ _ _ finite _ admitted => finite.add admitted) p hp).finite) positive

/-- A tick of compiled patterns ends after finitely many steps: everyone has had a turn, or one
turn has met a fault, of a window that was refused or of an emission, asked for by one of the
programs, of too many children. With exact numbers and finite times no window is refused, and if
there is room for all emissions everyone has a turn. -/
theorem tick_ends {α : Type} [Scalar α] [Scalar.Signed α] {programs : Program α → Prop}
    {f : Field α} (h : f.Played (Gen.From programs) fun _ => True) (dt : α) :
    f.Ends dt (fun fault => fault.OfWindow ∨ fault.OfExcess (Batch.Asked programs)) ∧
    ((∀ batch, Batch.Asked programs batch → batch.Fits) → f.Ends dt Fault.OfWindow) ∧
    (∀ (programs : Program Exact → Prop) (g : Field Exact),
      g.Played (Gen.From programs) Scalar.IsFinite → ∀ d, Scalar.IsFinite d → 0 < d →
      g.Ends d (Fault.OfExcess (Batch.Asked programs)) ∧
      ((∀ batch, Batch.Asked programs batch → batch.Fits) → ∃ steps, g.Exhausts d steps)) ∧
    ∀ g : Field Exact,
      g.Played (fun gen => gen.Compiled ∧ gen.Sparing fun _ => False) Scalar.IsFinite →
      ∀ d, Scalar.IsFinite d → 0 < d → ∃ steps, g.Exhausts d steps := by
  refine ⟨(h.sparing fun _ => id).ends dt, fun room => ?_, fun programs g hg d finite positive =>
    ⟨(hg.sparing fun _ => id).ends_sparing positive, fun room => ?_⟩,
    fun g hg d finite positive => (hg.ends_sparing positive).exhausts⟩
  · exact ((h.sparing (Fault.not_ofExcess room)).ends dt).mono fun _ reason =>
      reason.resolve_right id
  · exact ((hg.sparing (Fault.not_ofExcess room)).ends_sparing positive).exhausts

/-- An emission in the body of another one, over and over. -/
theorem tick_ends_loop :
    let once : Term Exact → Term Exact := fun body =>
      .list [.symbol "emit", .number (real 1), .number (real 1), .number (real 1), body]
    let p : Program Exact := [.list [.symbol "loop", once (once (.symbol "nop"))]]
    ∃ gen f, p.compile = .ok gen ∧ (empty Settings.standard).spawn gen = .ok f ∧ f.size = 1 ∧
      (∀ batch, Batch.Asked (· = p) batch → batch.Fits) ∧ (gen.Sparing fun _ => False) ∧
      f.Played (Gen.From (· = p)) Scalar.IsFinite ∧
      f.Played (Gen.From (· = p)) (fun _ => True) ∧
      Scalar.IsFinite (1 : Exact) ∧ 0 < (1 : Exact) ∧ f.Ends 1 Fault.OfWindow ∧
      f.Ends 1 (Fault.OfExcess (Batch.Asked (· = p))) ∧ ∃ steps, f.Exhausts 1 steps := by
  intro once p
  have asked : ∀ batch, Batch.Asked (· = p) batch → batch = ⟨1, 1, 1⟩ := by
    rintro batch ⟨_, rfl, head, args, m, applied, meant, offers, ask⟩
    have long := ask.three_le
    obtain ⟨rfl, body, rfl⟩ | rfl : (head = .symbol "emit" ∧ ∃ body, args =
        [.number (real 1), .number (real 1), .number (real 1), body]) ∨
        head = .number (real 1) := by
      simp only [p, once, Term.appliedTo_list, Term.not_appliedTo_symbol,
        Term.not_appliedTo_number, List.suffix_cons_iff, List.suffix_nil, List.mem_cons,
        List.not_mem_nil, or_false, exists_eq_or_imp, exists_eq_left, List.cons.injEq,
        false_or] at applied
      grind
    · simpa using Argument.ask_constants ask
    · cases meant
      cases offers
  have fits : ∀ batch, Batch.Asked (· = p) batch → batch.Fits := by
    intro batch asks
    rw [asked batch asks]
    decide
  obtain ⟨gen, compiled⟩ : ∃ gen, p.compile = .ok gen := ⟨_, rfl⟩
  have source : Gen.From (· = p) gen := ⟨p, rfl, compiled⟩
  have sparing := source.sparing_of_fits fits
  obtain ⟨f, spawned, size⟩ : ∃ f, (empty Settings.standard).spawn gen = .ok f ∧ f.size = 1 := by
    obtain ⟨b, after, made⟩ := sparing.total .single (Rng.ofSeed Settings.standard.seed)
    exact ⟨_, bind_eq_ok.2 ⟨_, made, rfl⟩, rfl⟩
  have finitely : f.Played (Gen.From (· = p)) Scalar.IsFinite := .spawn .empty source spawned
  have anyhow : f.Played (Gen.From (· = p)) fun _ => True :=
    finitely.mono (fun _ made => made) fun _ _ => trivial
  have finite : Scalar.IsFinite (1 : Exact) := Exact.isFinite_iff.2 ⟨1, by simp⟩
  have positive : 0 < (1 : Exact) := by simp
  obtain ⟨-, windows, exact, -⟩ := tick_ends anyhow 1
  obtain ⟨excess, all⟩ := exact (· = p) f finitely 1 finite positive
  exact ⟨gen, f, compiled, spawned, size, fits, sparing, finitely, anyhow, finite, positive,
    windows fits, excess, all fits⟩

/-- An emission of nothing at all, but at so many moments that they cannot be listed. The first
turn of the tick is at fault. -/
theorem tick_without_room :
    let p : Program Exact := [.list [.symbol "loop", .list [.symbol "emit", .number (real 0),
      .number (real (10 ^ 19)), .number (real 1), .symbol "nop"]]]
    ∃ gen f, p.compile = .ok gen ∧ (empty Settings.standard).spawn gen = .ok f ∧
      f.Played Gen.Compiled Scalar.IsFinite ∧ Scalar.IsFinite (1 : Exact) ∧ 0 < (1 : Exact) ∧
      ∀ steps, ¬f.Exhausts 1 steps := by
  intro p
  let body : Gen Exact (Behavior Exact) := (Gen.constant (real 0)).bind fun n =>
    (Gen.constant (real (10 ^ 19))).bind fun t => (Gen.constant (real 1)).mapFault fun c =>
      Behavior.emission ⟨Gen.countOf n, Gen.countOf t, Gen.countOf c⟩ (Gen.constant .pause)
  let gen : Gen Exact (Behavior Exact) := fun s r => .ok (.loop body s, r)
  have compiled : p.compile = .ok gen := rfl
  let f := (empty Settings.standard).add (.ofBehavior (.loop body .single))
  have spawned : (empty Settings.standard).spawn gen = .ok f := rfl
  have fails : ∀ s r, body s r = .error .noRoom := by
    intro s r
    have moments : Gen.countOf (real (10 ^ 19)) = 10 ^ 19 := by
      rw [← Gen.countOf_natCast (10 ^ 19), Nat.cast_pow, Nat.cast_ofNat]
    show (Behavior.emission ⟨_, Gen.countOf (real (10 ^ 19)), _⟩ _).map (·, r) = _
    rw [moments]
    rfl
  have failed : (Particle.ofBehavior (.loop body .single)).drive 1 f.rng = .error .noRoom := by
    have enters : Timing.enter (.unbounded : Timing Exact) ⟨0, 0 + 1⟩ =
        .ok (true, { Timing.unbounded with lastStop := some (0 + 1) }) := by
      simp [Timing.enter, Timing.unbounded, Timing.ofLifespan]
    have drawn : ∀ r, Supply.next (.body body .single none) r = .error .noRoom := by
      intro r
      rw [Supply.next, fails]
      rfl
    show Behavior.update (.loop body .single) ⟨0, 0 + 1⟩ _ >>= _ = _
    rw [Behavior.loop, Behavior.ofSupply, Behavior.update_chain,
      Chain.update_wakeBy, enters]
    show Supply.next _ _ >>= _ >>= _ = _
    rw [drawn]
    rfl
  refine ⟨gen, f, compiled, spawned, .spawn .empty ⟨p, compiled⟩ spawned,
    Exact.isFinite_iff.2 ⟨1, by simp⟩, by simp, ?_⟩
  rintro steps ⟨s, hs, -⟩
  cases steps with
  | zero => cases hs
  | succ steps =>
    rw [Scan.run_error (Scan.step_error rfl failed)] at hs
    cases hs

end Field

end ParticlePatterns
