import Mathlib
import ParticlePatterns.Proofs.Field.Turns

/-!
# Particles keep apart

Where nothing is drawn at random, what becomes of a particle does not depend on the others in
its field, nor on the place that it is moved to. To whom the turns fall in which order makes no
difference to what they leave, so a tick of two fields together can be taken apart into a tick
of each, and two ticks can be joined.
-/

set_option autoImplicit false

namespace ParticlePatterns

open Exact (real)

variable {α : Type} [Scalar α] {dt : α} {s t left : Multiset (Particle α)} {n m : Nat}
  {p : Particle α}

def Particle.Turns (dt : α) (p : Particle α) (leftover : α) (behavior : Option (Behavior α))
    (sprite : Sprite α) (emitted : Array (Particle α)) : Prop :=
  ∀ r, p.drive dt r = .ok (leftover, behavior, ⟨sprite, r, emitted⟩)

theorem Particle.Still.turns (h : p.Still) {r : Rng} {leftover : α}
    {behavior : Option (Behavior α)} {stage : Stage α}
    (hd : p.drive dt r = .ok (leftover, behavior, stage)) :
    p.Turns dt leftover behavior stage.sprite stage.emitted := by
  intro r'
  rw [h.drive_seeded r r', hd]
  rfl

/-- So many turns, of some particles and of all that are emitted on the way, each taken by
anyone who has not had one yet, with what they leave. -/
inductive Passes (dt : α) : Nat → Multiset (Particle α) → Multiset (Particle α) → Prop
  | nobody : Passes dt 0 0 0
  | turn {n : Nat} {p : Particle α} {others left : Multiset (Particle α)} {leftover : α}
      {behavior : Option (Behavior α)} {sprite : Sprite α} {emitted : Array (Particle α)} :
      p.Turns dt leftover behavior sprite emitted →
      Passes dt n (others + emitted.toList) left →
      Passes dt (n + 1) (p ::ₘ others) (Scan.left dt p leftover behavior sprite + left)

namespace Passes

theorem eq_zero_iff (h : Passes dt n s left) : n = 0 ↔ s = 0 := by
  cases h <;> simp

theorem join {a b : Multiset (Particle α)} (hs : Passes dt n s a) (ht : Passes dt m t b) :
    Passes dt (n + m) (s + t) (a + b) := by
  induction hs with
  | nobody => simpa using ht
  | @turn n p others left leftover behavior sprite emitted turns _ ih =>
    rw [Nat.add_right_comm, Multiset.cons_add,
      add_assoc (Scan.left dt p leftover behavior sprite)]
    refine .turn turns ?_
    rwa [add_right_comm]

theorem split (h : Passes dt n s left) : ∀ {a b : Multiset (Particle α)}, s = a + b →
    ∃ k m c d, n = k + m ∧ left = c + d ∧ Passes dt k a c ∧ Passes dt m b d := by
  induction h with
  | nobody =>
    intro a b h
    obtain ⟨rfl, rfl⟩ := add_eq_zero.1 h.symm
    exact ⟨0, 0, 0, 0, rfl, rfl, .nobody, .nobody⟩
  | @turn n p others left leftover behavior sprite emitted turns _ ih =>
    intro a b h
    have found : p ∈ a + b := h ▸ Multiset.mem_cons_self p others
    obtain first | second := Multiset.mem_add.1 found
    · obtain ⟨a, rfl⟩ := Multiset.exists_cons_of_mem first
      rw [Multiset.cons_add] at h
      obtain rfl := (Multiset.cons_inj_right p).1 h
      obtain ⟨k, m, c, d, rfl, rfl, hc, hd⟩ := ih (add_right_comm a b _)
      exact ⟨k + 1, m, _, d, Nat.add_right_comm _ _ _, (add_assoc _ _ _).symm, .turn turns hc, hd⟩
    · obtain ⟨b, rfl⟩ := Multiset.exists_cons_of_mem second
      rw [Multiset.add_cons] at h
      obtain rfl := (Multiset.cons_inj_right p).1 h
      obtain ⟨k, m, c, d, rfl, rfl, hc, hd⟩ := ih (add_assoc a b _)
      exact ⟨k, m + 1, c, _, rfl, add_left_comm _ _ _, hc, .turn turns hd⟩

/-- Anyone who is still to have a turn may have it first. -/
theorem first (h : Passes dt n (p ::ₘ s) left) :
    ∃ m leftover behavior sprite emitted rest, n = m + 1 ∧
      p.Turns dt leftover behavior sprite emitted ∧
      left = Scan.left dt p leftover behavior sprite + rest ∧
      Passes dt m (s + emitted.toList) rest := by
  obtain ⟨k, m, c, d, rfl, rfl, hc, hd⟩ := h.split (Multiset.singleton_add p s).symm
  generalize single : ({p} : Multiset (Particle α)) = alone at hc
  cases hc with
  | nobody => simp at single
  | @turn k q others rest leftover behavior sprite emitted turns later =>
    obtain ⟨rfl, rfl⟩ := (Multiset.singleton_eq_cons_iff others).1 single
    refine ⟨k + m, leftover, behavior, sprite, emitted, rest + d, Nat.add_right_comm _ _ _,
      turns, add_assoc _ _ _, ?_⟩
    rw [zero_add] at later
    rw [add_comm s]
    exact later.join hd

end Passes

namespace Scan

theorem passes_of_run (turns : Nat) : ∀ {s t : Scan α}, (∀ p ∈ s.particles, p.Still) →
    run dt turns s = .ok t →
    ∃ n left, Passes dt n s.pending left ∧ ↑t.particles.toList = s.done + left := by
  induction turns with
  | zero =>
    intro s t _ h
    cases h
  | succ turns ih =>
    intro s t still h
    obtain ⟨outcome, hstep, h⟩ := bind_eq_ok.1 h
    cases hp : s.particles[s.index]? with
    | none =>
      rw [step_over hp] at hstep
      cases hstep
      cases h
      have nobody := pending_of_none hp
      rw [← done_add_pending, nobody]
      exact ⟨0, 0, .nobody, rfl⟩
    | some p =>
      cases hd : p.drive dt s.rng with
      | error fault =>
        rw [step_error hp hd] at hstep
        cases hstep
      | ok result =>
        obtain ⟨u, others, more, -, before, after, kept⟩ := exists_step hp hd
        obtain rfl := Except.ok.inj (more.symm.trans hstep)
        obtain ⟨n, left, passes, all⟩ := ih (Particle.Still.keeps.step still more) h
        rw [after] at passes
        have whole := Passes.turn ((still p (Array.mem_of_getElem? hp)).turns hd) passes
        rw [← before] at whole
        exact ⟨n + 1, _, whole, by rw [all, kept, add_assoc]⟩

theorem run_of_passes (n : Nat) : ∀ {s : Scan α} {left : Multiset (Particle α)},
    Passes dt n s.pending left →
    ∃ t, run dt (n + 1) s = .ok t ∧ ↑t.particles.toList = s.done + left := by
  induction n with
  | zero =>
    intro s left h
    generalize pending : s.pending = those at h
    cases h
    have size := pending_eq_zero.1 pending
    refine ⟨s, run_over (step_over (Array.getElem?_eq_none_iff.2 size)) 0, ?_⟩
    rw [← done_add_pending, pending]
  | succ n ih =>
    intro s left h
    cases hp : s.particles[s.index]? with
    | none =>
      exact absurd (h.eq_zero_iff.2 (pending_of_none hp)) (Nat.succ_ne_zero n)
    | some p =>
      obtain ⟨others, before⟩ := Multiset.exists_cons_of_mem (mem_pending hp)
      rw [before] at h
      obtain ⟨m, leftover, behavior, sprite, emitted, rest, same, turns, rfl, passes⟩ := h.first
      obtain rfl := Nat.succ.inj same
      obtain ⟨u, others', more, -, before', after, kept⟩ := exists_step hp (turns s.rng)
      obtain rfl := (Multiset.cons_inj_right p).1 (before.symm.trans before')
      rw [← after] at passes
      obtain ⟨t, ht, all⟩ := ih passes
      refine ⟨t, by rw [run_more more, ht], ?_⟩
      rw [all, kept, add_assoc]

end Scan

namespace Field

def Becomes (f : Field α) (dt : α) (left : Multiset (Particle α)) : Prop :=
  ∃ turns g, f.updateWithin turns dt = .ok g ∧ ↑g.particles.toList = left

variable {f g h : Field α} {a b : Multiset (Particle α)}

theorem becomes_of_not_pos (still : ¬0 < dt) : f.Becomes dt a ↔ ↑f.particles.toList = a := by
  simp [Becomes, updateWithin, still]

theorem Still.becomes_iff (still : f.Still) (positive : 0 < dt) :
    f.Becomes dt left ↔ ∃ n, Passes dt n f.particles.toList left := by
  constructor
  · rintro ⟨turns, g, hg, rfl⟩
    obtain ⟨s, hs, rfl⟩ := (updateWithin_of_pos positive).1 hg
    obtain ⟨n, left, passes, all⟩ :=
      Scan.passes_of_run turns (s := ⟨0, f.particles, f.rng⟩) still hs
    rw [Scan.pending_start] at passes
    rw [Scan.done_start, zero_add] at all
    exact ⟨n, all ▸ passes⟩
  · rintro ⟨n, passes⟩
    rw [← Scan.pending_start f.particles f.rng] at passes
    obtain ⟨t, ht, all⟩ := Scan.run_of_passes n passes
    rw [Scan.done_start, zero_add] at all
    exact ⟨n + 1, _, (updateWithin_of_pos positive).2 ⟨t, ht, rfl⟩, all⟩

/-- A tick of two fields in one is a tick of each. -/
theorem Still.becomes_append (hg : g.Still) (hh : h.Still)
    (both : f.particles = g.particles ++ h.particles) :
    f.Becomes dt left ↔ ∃ a b, left = a + b ∧ g.Becomes dt a ∧ h.Becomes dt b := by
  have together : (f.particles.toList : Multiset (Particle α)) =
      g.particles.toList + h.particles.toList := by
    rw [both, Array.toList_append, Multiset.coe_add]
  have hf : f.Still := by
    intro p hp
    rw [both] at hp
    exact (Array.mem_append.1 hp).elim (hg p) (hh p)
  by_cases positive : 0 < dt
  · rw [hf.becomes_iff positive]
    simp only [hg.becomes_iff positive, hh.becomes_iff positive, together]
    constructor
    · rintro ⟨n, passes⟩
      obtain ⟨k, m, c, d, -, rfl, hc, hd⟩ := passes.split rfl
      exact ⟨c, d, rfl, ⟨k, hc⟩, m, hd⟩
    · rintro ⟨c, d, rfl, ⟨k, hc⟩, m, hd⟩
      exact ⟨k + m, hc.join hd⟩
  · simp only [becomes_of_not_pos positive, together]
    constructor
    · rintro rfl
      exact ⟨_, _, rfl, rfl, rfl⟩
    · rintro ⟨_, _, rfl, rfl, rfl⟩
      rfl

theorem becomes_of_update (h : f.update dt = .ok g) : f.Becomes dt g.particles.toList :=
  ⟨Scan.turnLimit, g, (f.update_eq_updateWithin dt).symm.trans h, rfl⟩

theorem Becomes.unique (ha : f.Becomes dt a) (hb : f.Becomes dt b) : a = b := by
  by_cases positive : 0 < dt
  · obtain ⟨k, g, hg, rfl⟩ := ha
    obtain ⟨m, h, hh, rfl⟩ := hb
    obtain ⟨s, hs, rfl⟩ := (updateWithin_of_pos positive).1 hg
    obtain ⟨t, ht, rfl⟩ := (updateWithin_of_pos positive).1 hh
    have hs := Scan.run_add k m hs
    have ht := Scan.run_add m k ht
    rw [Nat.add_comm] at ht
    rw [Except.ok.inj (hs.symm.trans ht)]
  · exact ((becomes_of_not_pos positive).1 ha).symm.trans ((becomes_of_not_pos positive).1 hb)

/-- Particles that draw nothing at random do not interact: a field that holds those of two others
comes to the end of a tick just when both of these do, and to their particles together. The
random states and the settings of the fields may be any. -/
theorem particles_apart (hg : g.Still) (hh : h.Still)
    (both : f.particles = g.particles ++ h.particles) (dt : α) :
    (∀ left, f.Becomes dt left ↔ ∃ a b, left = a + b ∧ g.Becomes dt a ∧ h.Becomes dt b) ∧
    ∀ f' g' h', f.update dt = .ok f' → g.update dt = .ok g' → h.update dt = .ok h' →
      f'.particles.toList.Perm (g'.particles.toList ++ h'.particles.toList) := by
  refine ⟨fun left => hg.becomes_append hh both, fun f' g' h' hf' hg' hh' => ?_⟩
  obtain ⟨a, b, same, ha, hb⟩ := (hg.becomes_append hh both).1 (becomes_of_update hf')
  obtain rfl := ha.unique (becomes_of_update hg')
  obtain rfl := hb.unique (becomes_of_update hh')
  exact Multiset.coe_eq_coe.1 same

/-- A burst that is replaced by its child, beside an idle particle and a pause. -/
theorem particles_apart_burst :
    let pause : Behavior Exact := .leaf (.ofLifespan (real 5)) .pause
    let burst : Behavior Exact := .emit .instant ⟨1, 1, 1⟩ (Gen.constant pause)
    let g : Field Exact := (empty Settings.standard).add (.ofBehavior burst)
    let h : Field Exact := ((empty Settings.standard).add .idle).add (.ofBehavior pause)
    let f : Field Exact := ⟨g.particles ++ h.particles, .ofSeed 7, Settings.standard⟩
    g.Still ∧ h.Still ∧ f.size = 3 ∧ f.particles = g.particles ++ h.particles ∧
      ∀ left, f.Becomes 1 left ↔ ∃ a b, left = a + b ∧ g.Becomes 1 a ∧ h.Becomes 1 b := by
  intro pause burst g h f
  have waits : pause.Still := .leaf
  have bursts : burst.Still := by
    have born : ∀ b, (Gen.constant pause : Gen Exact (Behavior Exact)).Gives b → b.Still := by
      rintro b ⟨_, _, _, made⟩
      cases made
      exact waits
    exact .emit (fun _ _ _ => rfl) le_top born
  have driven : ∀ b : Behavior Exact, b.Still → Particle.Still (.ofBehavior b) :=
    fun b still c hc => Option.some.inj hc ▸ still
  have idle : Particle.Still (.idle : Particle Exact) := by
    rintro c ⟨⟩
  have hg : g.Still := by
    simp only [Still, g, add, empty, Array.mem_push, Array.not_mem_empty, false_or, forall_eq]
    exact driven burst bursts
  have hh : h.Still := by
    simp only [Still, h, add, empty, Array.mem_push, Array.not_mem_empty, false_or,
      forall_eq_or_imp, forall_eq]
    exact ⟨idle, driven pause waits⟩
  exact ⟨hg, hh, rfl, rfl, (particles_apart hg hh rfl 1).1⟩

end Field

end ParticlePatterns
