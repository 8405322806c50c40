import Mathlib
import ParticlePatterns.Proofs.Behavior.Stillness
import ParticlePatterns.Proofs.Field.Tick

/-!
# Turns

A turn takes one particle out of those that are still to have one. What goes on is put with
those who have had theirs, and the children that have been emitted are still to have theirs.
The order in which they stand makes no difference to this. Particles with lawful behaviors
leave lawful ones behind, and those that draw nothing leave the random state alone.
-/

set_option autoImplicit false

namespace ParticlePatterns

variable {α : Type}

namespace Scan

def pending (s : Scan α) : Multiset (Particle α) :=
  ↑(s.particles.toList.drop s.index)

def done (s : Scan α) : Multiset (Particle α) :=
  ↑(s.particles.toList.take s.index)

theorem done_add_pending (s : Scan α) : s.done + s.pending = ↑s.particles.toList := by
  rw [done, pending, Multiset.coe_add, List.take_append_drop]

theorem mem_particles {s : Scan α} {p : Particle α} :
    p ∈ s.particles ↔ p ∈ s.done ∨ p ∈ s.pending := by
  rw [← Multiset.mem_add, done_add_pending, Multiset.mem_coe, Array.mem_toList_iff]

theorem forall_particles {s : Scan α} {good : Particle α → Prop} :
    (∀ p ∈ s.particles, good p) ↔ (∀ p ∈ s.pending, good p) ∧ ∀ p ∈ s.done, good p := by
  simp only [mem_particles, or_imp, forall_and]
  exact and_comm

theorem pending_eq_zero {s : Scan α} : s.pending = 0 ↔ s.particles.size ≤ s.index := by
  rw [pending, Multiset.coe_eq_zero, List.drop_eq_nil_iff, Array.length_toList]

theorem pending_of_none {s : Scan α} (h : s.particles[s.index]? = none) : s.pending = 0 :=
  pending_eq_zero.2 (Array.getElem?_eq_none_iff.1 h)

theorem pending_start (particles : Array (Particle α)) (r : Rng) :
    pending ⟨0, particles, r⟩ = ↑particles.toList := by
  simp [pending]

theorem done_start (particles : Array (Particle α)) (r : Rng) :
    done ⟨0, particles, r⟩ = 0 := by
  simp [done]

theorem mem_pending {s : Scan α} {p : Particle α} (h : s.particles[s.index]? = some p) :
    p ∈ s.pending := by
  obtain ⟨done, rest, split, length⟩ := exists_split h
  simp [pending, split, ← length]

variable [Scalar α] {dt : α} {s t : Scan α} {p : Particle α}

def left (dt : α) (p : Particle α) (leftover : α) (behavior : Option (Behavior α))
    (sprite : Sprite α) : Multiset (Particle α) :=
  if 0 ≤ leftover then 0 else {p.moved dt sprite behavior}

theorem step_over (h : s.particles[s.index]? = none) : s.step dt = .ok (.over s) := by
  obtain ⟨index, particles, rng⟩ := s
  simp only at h
  simp only [step, h]

theorem step_error (h : s.particles[s.index]? = some p) {fault : Fault α}
    (hd : p.drive dt s.rng = .error fault) : s.step dt = .error fault := by
  obtain ⟨index, particles, rng⟩ := s
  simp only at h hd
  simp only [step, h, hd]
  rfl

theorem step_of_drive {index : Nat} {particles : Array (Particle α)} {rng : Rng} {leftover : α}
    {behavior : Option (Behavior α)} {stage : Stage α} (hp : particles[index]? = some p)
    (hd : p.drive dt rng = .ok (leftover, behavior, stage)) :
    step dt ⟨index, particles, rng⟩ = .ok (.more
      (if 0 ≤ leftover then ⟨index, replaceByLast (particles ++ stage.emitted) index, stage.rng⟩
      else ⟨index + 1, (particles ++ stage.emitted).setIfInBounds index
        (p.moved dt stage.sprite behavior), stage.rng⟩)) := by
  simp only [step, hp]
  refine bind_eq_ok.2 ⟨_, hd, ?_⟩
  by_cases hl : 0 ≤ leftover
  · rw [if_pos hl, if_pos hl]
    rfl
  · rw [if_neg hl, if_neg hl]
    rfl

theorem exists_step (h : s.particles[s.index]? = some p) {leftover : α}
    {behavior : Option (Behavior α)} {stage : Stage α}
    (hd : p.drive dt s.rng = .ok (leftover, behavior, stage)) :
    ∃ t rest, s.step dt = .ok (.more t) ∧ t.rng = stage.rng ∧ s.pending = p ::ₘ rest ∧
      t.pending = rest + stage.emitted.toList ∧
      t.done = s.done + left dt p leftover behavior stage.sprite := by
  obtain ⟨index, particles, rng⟩ := s
  simp only at h hd
  obtain ⟨done, rest, split, rfl⟩ := exists_split h
  have joined : (particles ++ stage.emitted).toList =
      done ++ p :: (rest ++ stage.emitted.toList) := by simp [split]
  have before : pending ⟨done.length, particles, rng⟩ = p ::ₘ ↑rest := by
    simp [pending, split]
  by_cases complete : 0 ≤ leftover
  · refine ⟨⟨done.length, replaceByLast (particles ++ stage.emitted) done.length, stage.rng⟩,
      ↑rest, ?_, rfl, before, ?_, ?_⟩
    · rw [step_of_drive h hd, if_pos complete]
    · rw [pending, toList_replaceByLast joined, List.drop_left, Multiset.coe_add]
      exact Multiset.coe_eq_coe.2 (lastFirst_perm _)
    · rw [Scan.done, Scan.done, toList_replaceByLast joined, split, List.take_left, List.take_left,
        left, if_pos complete, add_zero]
  · have back : ((particles ++ stage.emitted).setIfInBounds done.length
        (p.moved dt stage.sprite behavior)).toList =
          (done ++ [p.moved dt stage.sprite behavior]) ++ (rest ++ stage.emitted.toList) := by
      rw [Array.toList_setIfInBounds, joined]
      simp
    have count : done.length + 1 = (done ++ [p.moved dt stage.sprite behavior]).length := by simp
    refine ⟨⟨done.length + 1, (particles ++ stage.emitted).setIfInBounds done.length
      (p.moved dt stage.sprite behavior), stage.rng⟩, ↑rest, ?_, rfl, before, ?_, ?_⟩
    · rw [step_of_drive h hd, if_neg complete]
    · simp only [pending, back]
      rw [count, List.drop_left, Multiset.coe_add]
    · simp only [Scan.done, back, split]
      rw [count, List.take_left, List.take_left, left, if_neg complete, ← Multiset.coe_singleton,
        Multiset.coe_add]

theorem run_over (h : s.step dt = .ok (.over t)) (turns : Nat) : run dt (turns + 1) s = .ok t := by
  rw [run, h]
  rfl

theorem run_error {fault : Fault α} (h : s.step dt = .error fault) (turns : Nat) :
    run dt (turns + 1) s = .error fault := by
  rw [run, h]
  rfl

theorem run_more (h : s.step dt = .ok (.more t)) (turns : Nat) :
    run dt (turns + 1) s = run dt turns t := by
  rw [run, h]
  rfl

/-- More turns than were needed make no difference. -/
theorem run_add (turns more : Nat) : ∀ {s : Scan α}, run dt turns s = .ok t →
    run dt (turns + more) s = .ok t := by
  induction turns with
  | zero =>
    intro s h
    cases h
  | succ turns ih =>
    intro s h
    rw [Nat.add_right_comm]
    obtain ⟨turn, hs, h⟩ := bind_eq_ok.1 h
    refine bind_eq_ok.2 ⟨turn, hs, ?_⟩
    match turn with
    | .over final => exact h
    | .more next => exact ih h

end Scan

namespace Particle

def Lawful (law : Gen α (Behavior α) → Prop) (depth : ℕ∞) (p : Particle α) : Prop :=
  ∀ b, p.behavior = some b → b.Lawful law depth

def Still (p : Particle α) : Prop :=
  p.Lawful Gen.Still ⊤

variable [Scalar α] {dt : α} {p : Particle α} {law : Gen α (Behavior α) → Prop} {depth : ℕ∞}

theorem Lawful.drive_ends (h : p.Lawful law depth) (r : Rng) :
    EndsIn (fun turn => (∀ sprite, (p.moved dt sprite turn.2.1).Lawful law depth) ∧
        ∀ q ∈ turn.2.2.emitted, ∃ below, below + 1 ≤ depth ∧ q.Lawful law below)
      (Fault.Excused law) (p.drive dt r) := by
  unfold drive
  split
  · refine ⟨fun sprite b none => ?_, fun q hq => ?_⟩
    · cases none
    · simp at hq
  · rename_i b hb
    refine ((h b hb).upholds.2 _ ⟨p.sprite, r, #[]⟩).bind fun reply ⟨lawful, adds⟩ => ?_
    refine ⟨fun sprite c hc => Option.some.inj hc ▸ lawful, fun q hq => ?_⟩
    obtain hq | ⟨c, hc, below, room, born⟩ := adds q hq
    · simp at hq
    · refine ⟨below, room, fun d hd => ?_⟩
      obtain rfl : c = d := Option.some.inj (hc.symm.trans hd)
      exact born

theorem Lawful.of_drive (h : p.Lawful law depth) {r : Rng} {leftover : α}
    {behavior : Option (Behavior α)} {stage : Stage α}
    (hd : p.drive dt r = .ok (leftover, behavior, stage)) :
    (∀ sprite, (p.moved dt sprite behavior).Lawful law depth) ∧
      ∀ q ∈ stage.emitted, ∃ below, below + 1 ≤ depth ∧ q.Lawful law below := by
  have outcome : EndsIn _ _ (p.drive dt r) := h.drive_ends r
  rwa [hd] at outcome

theorem Lawful.excused_of_drive (h : p.Lawful law depth) {r : Rng} {fault : Fault α}
    (hd : p.drive dt r = .error fault) : fault.Excused law := by
  have outcome : EndsIn _ _ (p.drive dt r) := h.drive_ends r
  rwa [hd] at outcome

theorem Still.drive_seeded (h : p.Still) (r r' : Rng) : p.drive dt r' =
    (p.drive dt r).map fun turn => (turn.1, turn.2.1, turn.2.2.seeded r') := by
  unfold drive
  split
  · rfl
  · rename_i b hb
    exact bind_eq_map ((h b hb).update_seeded _ ⟨p.sprite, r, #[]⟩ r') fun _ _ => rfl

end Particle

namespace Scan

variable [Scalar α] {dt : α} {s t : Scan α}

theorem step_eq_over (h : s.step dt = .ok (.over t)) : t = s ∧ s.pending = 0 := by
  cases hp : s.particles[s.index]? with
  | none =>
    exact ⟨(Turn.over.inj (Except.ok.inj ((step_over hp).symm.trans h))).symm, pending_of_none hp⟩
  | some p =>
    cases hd : p.drive dt s.rng with
    | error fault =>
      rw [step_error hp hd] at h
      cases h
    | ok result =>
      obtain ⟨u, _, hstep, _⟩ := exists_step hp hd
      cases hstep.symm.trans h

def Settles (dt : α) (waiting settled : Particle α → Prop) : Prop :=
  ∀ p r leftover behavior stage, waiting p → p.drive dt r = .ok (leftover, behavior, stage) →
    (¬0 ≤ leftover → settled (p.moved dt stage.sprite behavior)) ∧ ∀ q ∈ stage.emitted, waiting q

namespace Settles

variable {waiting settled : Particle α → Prop}

theorem step (turn : Settles dt waiting settled) (hw : ∀ p ∈ s.pending, waiting p)
    (hs : ∀ p ∈ s.done, settled p) (h : s.step dt = .ok (.more t)) :
    (∀ p ∈ t.pending, waiting p) ∧ ∀ p ∈ t.done, settled p := by
  cases hp : s.particles[s.index]? with
  | none =>
    rw [step_over hp] at h
    cases h
  | some p =>
    cases hd : p.drive dt s.rng with
    | error fault =>
      rw [step_error hp hd] at h
      cases h
    | ok result =>
      obtain ⟨u, rest, hstep, -, before, after, kept⟩ := exists_step hp hd
      obtain rfl : u = t := Turn.more.inj (Except.ok.inj (hstep.symm.trans h))
      obtain ⟨moved, emitted⟩ := turn p _ _ _ _ (hw p (mem_pending hp)) hd
      constructor
      · intro q hq
        rw [after, Multiset.mem_add, Multiset.mem_coe, Array.mem_toList_iff] at hq
        obtain later | born := hq
        · exact hw q (before ▸ Multiset.mem_cons_of_mem later)
        · exact emitted q born
      · intro q hq
        rw [kept, Multiset.mem_add] at hq
        obtain earlier | left := hq
        · exact hs q earlier
        · unfold Scan.left at left
          split at left
          · simp at left
          next goes => exact Multiset.mem_singleton.1 left ▸ moved goes

/-- At the end of a tick everyone is settled. -/
theorem run (turn : Settles dt waiting settled) (turns : Nat) : ∀ {s : Scan α},
    (∀ p ∈ s.pending, waiting p) → (∀ p ∈ s.done, settled p) → Scan.run dt turns s = .ok t →
    ∀ p ∈ t.particles, settled p := by
  induction turns with
  | zero =>
    intro s _ _ h
    cases h
  | succ turns ih =>
    intro s hw hs h
    obtain ⟨outcome, hstep, h⟩ := bind_eq_ok.1 h
    match outcome with
    | .over final =>
      cases h
      obtain ⟨rfl, none⟩ := step_eq_over hstep
      intro p hp
      obtain earlier | later := mem_particles.1 hp
      · exact hs p earlier
      · simp [none] at later
    | .more next =>
      obtain ⟨hw, hs⟩ := turn.step hw hs hstep
      exact ih hw hs h

/-- If the turns of waiting particles are at fault for certain reasons only, so is a tick, unless
it is broken off. -/
theorem fault_of_run (turn : Settles dt waiting settled) {flaw : Fault α → Prop}
    (blame : ∀ p r fault, waiting p → p.drive dt r = .error fault → flaw fault) {fault : Fault α}
    (turns : Nat) : ∀ {s : Scan α}, (∀ p ∈ s.pending, waiting p) → (∀ p ∈ s.done, settled p) →
      Scan.run dt turns s = .error fault → fault = .unfinished ∨ flaw fault := by
  induction turns with
  | zero =>
    intro s _ _ h
    cases h
    exact .inl rfl
  | succ turns ih =>
    intro s hw hs h
    cases hstep : s.step dt with
    | ok outcome =>
      match outcome with
      | .over final => cases (run_over hstep turns).symm.trans h
      | .more next =>
        rw [run_more hstep] at h
        obtain ⟨hw, hs⟩ := turn.step hw hs hstep
        exact ih hw hs h
    | error early =>
      obtain rfl := Except.error.inj ((Scan.run_error hstep turns).symm.trans h)
      cases hp : s.particles[s.index]? with
      | none => cases (step_over hp).symm.trans hstep
      | some p =>
        refine .inr (blame p s.rng early (hw p (mem_pending hp)) ?_)
        cases hd : p.drive dt s.rng with
        | error fault => rw [Except.error.inj ((step_error hp hd).symm.trans hstep)]
        | ok result =>
          obtain ⟨_, _, more, _⟩ := exists_step hp hd
          cases more.symm.trans hstep

end Settles

def Keeps (dt : α) (good : Particle α → Prop) : Prop :=
  ∀ p r leftover behavior stage, good p → p.drive dt r = .ok (leftover, behavior, stage) →
    (¬0 ≤ leftover → good (p.moved dt stage.sprite behavior)) ∧ ∀ q ∈ stage.emitted, good q

variable {good : Particle α → Prop}

theorem Keeps.settles (turn : Keeps dt good) : Settles dt good good := turn

theorem Keeps.step (turn : Keeps dt good) (hs : ∀ p ∈ s.particles, good p)
    (h : s.step dt = .ok (.more t)) : ∀ p ∈ t.particles, good p := by
  obtain ⟨pending, done⟩ := forall_particles.1 hs
  exact forall_particles.2 (turn.settles.step pending done h)

theorem Keeps.run (turn : Keeps dt good) (turns : Nat) (hs : ∀ p ∈ s.particles, good p)
    (h : Scan.run dt turns s = .ok t) : ∀ p ∈ t.particles, good p := by
  obtain ⟨pending, done⟩ := forall_particles.1 hs
  exact turn.settles.run turns pending done h

theorem Keeps.fault_of_run (turn : Keeps dt good) {flaw : Fault α → Prop}
    (blame : ∀ p r fault, good p → p.drive dt r = .error fault → flaw fault) {fault : Fault α}
    (turns : Nat) (hs : ∀ p ∈ s.particles, good p) (h : Scan.run dt turns s = .error fault) :
    fault = .unfinished ∨ flaw fault := by
  obtain ⟨pending, done⟩ := forall_particles.1 hs
  exact turn.settles.fault_of_run blame turns pending done h

/-- As long as someone waits who cannot be driven, no tick comes to its end. -/
theorem run_ne_ok {stuck : Particle α → Prop}
    (refused : ∀ p, stuck p → ∀ r, ∃ fault, p.drive dt r = .error fault) (turns : Nat) :
    ∀ {s : Scan α}, (∃ p ∈ s.pending, stuck p) → Scan.run dt turns s ≠ .ok t := by
  induction turns with
  | zero =>
    intro s _ h
    cases h
  | succ turns ih =>
    rintro s ⟨q, hq, stopped⟩ h
    obtain ⟨outcome, hstep, h⟩ := bind_eq_ok.1 h
    match outcome with
    | .over final =>
      obtain ⟨rfl, none⟩ := step_eq_over hstep
      simp [none] at hq
    | .more next =>
      cases hp : s.particles[s.index]? with
      | none => cases (step_over hp).symm.trans hstep
      | some p =>
        cases hd : p.drive dt s.rng with
        | error fault => cases (step_error hp hd).symm.trans hstep
        | ok result =>
          obtain ⟨u, rest, more, -, before, after, -⟩ := exists_step hp hd
          obtain rfl : u = next := Turn.more.inj (Except.ok.inj (more.symm.trans hstep))
          rw [before, Multiset.mem_cons] at hq
          obtain rfl | later := hq
          · obtain ⟨fault, failed⟩ := refused q stopped s.rng
            cases failed.symm.trans hd
          · exact ih ⟨q, after ▸ Multiset.mem_add.2 (.inl later), stopped⟩ h

end Scan

theorem Particle.Still.keeps [Scalar α] {dt : α} : Scan.Keeps dt (Particle.Still (α := α)) := by
  intro p r leftover behavior stage still hd
  obtain ⟨moved, emitted⟩ := Particle.Lawful.of_drive still hd
  refine ⟨fun _ => moved _, fun q hq b hb => ?_⟩
  obtain ⟨below, _, born⟩ := emitted q hq
  exact (born b hb).mono le_top

namespace Field

def Still (f : Field α) : Prop :=
  ∀ p ∈ f.particles, p.Still

variable [Scalar α] {f g : Field α} {good : Particle α → Prop}

theorem spawn_keeps {gen : Gen α (Behavior α)} (h : ∀ p ∈ f.particles, good p)
    (born : ∀ b, gen.Gives b → good (.ofBehavior b)) (hs : f.spawn gen = .ok g) :
    ∀ p ∈ g.particles, good p := by
  obtain ⟨⟨b, rng⟩, made, hs⟩ := bind_eq_ok.1 hs
  cases hs
  intro p hp
  obtain hp | rfl := Array.mem_push.1 hp
  · exact h p hp
  · exact born b ⟨_, _, rng, made⟩

def updateWithin (turns : Nat) (f : Field α) (dt : α) : Except (Fault α) (Field α) :=
  if 0 < dt then do
    let s ← Scan.run dt turns ⟨0, f.particles, f.rng⟩
    pure { f with particles := s.particles, rng := s.rng }
  else .ok f

theorem update_eq_updateWithin (f : Field α) (dt : α) :
    f.update dt = f.updateWithin Scan.turnLimit dt := rfl

variable {dt : α}

theorem updateWithin_of_pos (positive : 0 < dt) {turns : Nat} :
    f.updateWithin turns dt = .ok g ↔ ∃ s, Scan.run dt turns ⟨0, f.particles, f.rng⟩ = .ok s ∧
      { f with particles := s.particles, rng := s.rng } = g := by
  rw [updateWithin, if_pos positive, bind_eq_ok]
  simp only [pure, Except.pure, Except.ok.injEq]

theorem updateWithin_of_not_pos (still : ¬0 < dt) (turns : Nat) :
    f.updateWithin turns dt = .ok f :=
  if_neg still

theorem updateWithin_keeps {turns : Nat} (h : ∀ p ∈ f.particles, good p)
    (turn : 0 < dt → Scan.Keeps dt good) (hu : f.updateWithin turns dt = .ok g) :
    ∀ p ∈ g.particles, good p := by
  by_cases positive : 0 < dt
  · obtain ⟨s, hs, rfl⟩ := (updateWithin_of_pos positive).1 hu
    exact (turn positive).run _ h hs
  · rw [updateWithin_of_not_pos positive] at hu
    cases hu
    exact h

theorem update_keeps (h : ∀ p ∈ f.particles, good p) (turn : Scan.Keeps dt good)
    (hu : f.update dt = .ok g) : ∀ p ∈ g.particles, good p :=
  updateWithin_keeps h (fun _ => turn) (f.update_eq_updateWithin dt ▸ hu)

/-- The one particle of a field, as long as it is not complete and emits nothing. -/
theorem update_alone {p : Particle α} (alone : f.particles = #[p]) (positive : 0 < dt)
    {leftover : α} {behavior : Option (Behavior α)} {stage : Stage α}
    (drive : p.drive dt f.rng = .ok (leftover, behavior, stage)) (goes : ¬0 ≤ leftover)
    (childless : stage.emitted = #[]) : f.update dt =
      .ok { f with particles := #[p.moved dt stage.sprite behavior], rng := stage.rng } := by
  have turn : Scan.step dt ⟨0, f.particles, f.rng⟩ =
      .ok (.more ⟨1, #[p.moved dt stage.sprite behavior], stage.rng⟩) := by
    rw [Scan.step_of_drive (by simp [alone]) drive, if_neg goes, alone, childless]
    rfl
  obtain ⟨n, enough⟩ : ∃ n, Scan.turnLimit = n + 1 + 1 := ⟨1 <<< 62 - 2, by decide⟩
  have run : Scan.run dt Scan.turnLimit ⟨0, f.particles, f.rng⟩ =
      .ok ⟨1, #[p.moved dt stage.sprite behavior], stage.rng⟩ := by
    rw [enough, Scan.run_more turn, Scan.run_over (Scan.step_over rfl)]
  rw [update_eq_updateWithin]
  exact (updateWithin_of_pos positive).2 ⟨_, run, rfl⟩

end Field

end ParticlePatterns
