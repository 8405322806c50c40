import ParticlePatterns.Proofs.Behavior.Turns

/-!
# Joining windows of branches

Each branch joins the windows on the components that it touches, and no other branch
touches these, so it does not matter that the branches take turns in the two windows.
-/

set_option autoImplicit false

namespace ParticlePatterns

open Exact (real)

variable {A : Set Component}

namespace Branch

theorem Course.kept {start stop latest : Exact} {complete : Bool} {stage : Stage Exact}
    {branches : List (Behavior Exact × Option Exact)} {parts : List (Set Component)}
    {result : Result Exact}
    (h : Course Behavior.update start stop branches latest complete stage result)
    (hm : Match Mirrors parts branches branches) (apart : parts.Pairwise Disjoint) :
    Twin (untouched parts) stage.sprite result.stage.sprite := by
  have pairs : Match (fun P b b' => Mirrors P b b' ∧ Simulates P b b') parts branches branches :=
    hm.self fun _ _ _ _ mirrors => ⟨mirrors, mirrors.simulates⟩
  obtain ⟨result', _, echo⟩ := h.echo pairs apart (fun P _ => Set.subset_univ P) (.refl _ _)
  exact echo.kept

variable {start mid cut : ℝ}

theorem joins_course (hmid : start < mid) (hcut : mid < cut) {latest : Exact} {complete : Bool}
    {stage : Stage Exact} {branches : List (Behavior Exact × Option Exact)}
    {first : Result Exact}
    (h : Course Behavior.update (real start) (real mid) branches latest complete stage first) :
    ∀ {S : Set Component} {parts : List (Set Component)} {latest' : Exact} {complete' : Bool}
    {stage' between : Stage Exact} {second : Result Exact},
    Match (fun P b _ => Joinable P start b) parts branches branches → parts.Pairwise Disjoint →
    (∀ P ∈ parts, P ⊆ S) → Twin S stage.sprite stage'.sprite → stage.sprite.rotation.IsReal →
    Twin S first.stage.sprite between.sprite →
    Course Behavior.update (real mid) (real cut) first.branches latest' complete' between second →
    ∃ whole, Course Behavior.update (real start) (real cut) branches latest' complete' stage'
      whole ∧ Echo S parts between stage' second whole := by
  induction h with
  | nil =>
    intro S parts latest' complete' stage' between second hm _ _ twin _ twin' behind
    cases behind
    match parts, hm with
    | [], _ => exact ⟨_, .nil, rfl, rfl, trivial, twin'.symm.trans twin, .refl _ _, .refl _ _⟩
  | @done b time latest rest complete stage first course ih =>
    intro S parts latest' complete' stage' between second hm apart inside twin hr twin' behind
    match parts, hm with
    | P :: parts, ⟨_, _, hm⟩ =>
      have disjoint := List.pairwise_cons.1 apart
      have still := course.kept (hm.self fun _ _ _ _ h => h.mirrors) disjoint.2
      have out := subset_untouched disjoint.1
      have head : Twin P between.sprite stage'.sprite := by
        have start' := (still.mono out).trans (twin'.mono (inside P List.mem_cons_self))
        exact start'.symm.trans (twin.mono (inside P List.mem_cons_self))
      cases behind with
      | done behind =>
        obtain ⟨whole, course', echo⟩ := ih hm disjoint.2 (subset_diff_of_pairwise apart inside)
          (twin.mono Set.sdiff_subset) hr (twin'.mono Set.sdiff_subset) behind
        exact ⟨_, .done course', echo.cons disjoint.1 (fun hn => by cases hn) head (.refl _ _)
          (.refl _ _)⟩
  | @waits b latest rest complete stage answer first ha hn course ih =>
    intro S parts latest' complete' stage' between second hm apart inside twin hr twin' behind
    match parts, hm with
    | P :: parts, ⟨_, hb, hm⟩ =>
      have disjoint := List.pairwise_cons.1 apart
      have still := course.kept (hm.self fun _ _ _ _ h => h.mirrors) disjoint.2
      have out := subset_untouched disjoint.1
      have hP := inside P List.mem_cons_self
      have hb := hb rfl
      obtain ⟨mirrors, kept⟩ := hb.mirrors.update ha
      have back : Twin P between.sprite answer.stage.sprite :=
        ((still.mono out).trans (twin'.mono hP)).symm
      obtain ⟨_, _, join⟩ := hb.continued hmid hcut (twin.mono hP) hr ha hn
      have rest : ∀ {answer' whole : Reply Exact} {latest' : Exact} {complete' : Bool}
          {second : Result Exact},
          answer.behavior.update ⟨real mid, real cut⟩ between = .ok answer' →
          b.update ⟨real start, real cut⟩ stage' = .ok whole →
          Course Behavior.update (real mid) (real cut) first.branches latest' complete'
            answer'.stage second →
          ∃ result, Course Behavior.update (real start) (real cut) rest latest' complete'
            whole.stage result ∧ Echo (S \ P) parts answer'.stage whole.stage second result :=
        fun ha' hw behind => ih hm disjoint.2 (subset_diff_of_pairwise apart inside)
          (twin.carry kept (hb.mirrors.update hw).2) (hb.mirrors.rotation_isReal ha hr)
          (twin'.carry (.refl _ _) (mirrors.update ha').2) behind
      cases behind with
      | waits ha' hn' behind =>
        obtain ⟨_, whole, hw, alike⟩ := join _ _ back ha'
        obtain ⟨result, course', echo⟩ := rest ha' hw behind
        exact ⟨_, .waits hw (alike.leftover ▸ hn') course', echo.cons disjoint.1
          (fun _ => alike.behavior) alike.twin (mirrors.update ha').2 (hb.mirrors.update hw).2⟩
      | @ends _ _ _ _ _ answer' _ ha' hn' behind =>
        obtain ⟨_, whole, hw, alike⟩ := join _ _ back ha'
        have time : real cut - whole.leftover = real cut - answer'.leftover := by
          rw [alike.leftover]
        rw [← time] at behind ⊢
        obtain ⟨result, course', echo⟩ := rest ha' hw behind
        exact ⟨_, .ends hw (alike.leftover ▸ hn') course', echo.cons disjoint.1
          (fun hn => by cases hn) alike.twin (mirrors.update ha').2 (hb.mirrors.update hw).2⟩
  | @ends b latest rest complete stage answer first ha hn course ih =>
    intro S parts latest' complete' stage' between second hm apart inside twin hr twin' behind
    match parts, hm with
    | P :: parts, ⟨_, hb, hm⟩ =>
      have disjoint := List.pairwise_cons.1 apart
      have still := course.kept (hm.self fun _ _ _ _ h => h.mirrors) disjoint.2
      have out := subset_untouched disjoint.1
      have hP := inside P List.mem_cons_self
      have hb := hb rfl
      obtain ⟨d, whole, _, _, leftover, hw, leftover', hn', alike⟩ :=
        hb.ended hmid hcut (twin.mono hP) hr ha hn
      have time : real cut - whole.leftover = real mid - answer.leftover := by
        simp [leftover, leftover']
      have kept := (hb.mirrors.update ha).2
      have kept' := (hb.mirrors.update hw).2
      have head : Twin P between.sprite whole.stage.sprite :=
        ((still.mono out).trans (twin'.mono hP)).symm.trans alike
      cases behind with
      | done behind =>
        obtain ⟨result, course', echo⟩ := ih hm disjoint.2 (subset_diff_of_pairwise apart inside)
          (twin.carry kept kept') (hb.mirrors.rotation_isReal ha hr) (twin'.mono Set.sdiff_subset)
          behind
        rw [← time] at course' ⊢
        exact ⟨_, .ends hw hn' course', echo.cons disjoint.1 (fun hn => by cases hn) head
          (.refl _ _) kept'⟩

end Branch

theorem Due.of_parallel {now d : ℝ} {timing : Timing Exact}
    {branches : List (Behavior Exact × Option Exact)} (h : Due now (.parallel timing branches) d) :
    0 ≤ timing.lifespan ∧ real now < timing.lifespan ∧
      (timing.isRunning = true → ∃ p ∈ branches, p.2 = none) := by
  cases h with
  | parallel _ h0 alive _ _ left _ _ => exact ⟨h0, alive, left⟩

/-- Branches that are all complete are not negative. -/
theorem Settles.exhausted {stop d : ℝ} {x leftover : Exact} {timing : Timing Exact}
    {branches : List (Behavior Exact × Option Exact)} {stage : Stage Exact}
    (h : Settles stop d ⟨leftover,
      .parallel { timing with lastStop := some x } branches, stage⟩)
    (all : ∀ p ∈ branches, p.2 ≠ none) : d ≤ stop ∧ leftover = real (stop - d) := by
  refine h.complete fun negative => ?_
  obtain ⟨_, _, left⟩ := (h.due negative).of_parallel
  obtain ⟨p, hp, hn⟩ := left rfl
  exact all p hp hn

theorem joins_parallel {now d : ℝ} {timing : Timing Exact} {parts : List (Set Component)}
    {branches : List (Behavior Exact × Option Exact)} (due : Due now (.parallel timing branches) d)
    (awaits : timing.Awaits now)
    (hm : Branch.Match (fun P b _ => Joinable P now b) parts branches branches)
    (apart : parts.Pairwise Disjoint) (inside : ∀ P ∈ parts, P ⊆ A) :
    Joins A now (.parallel timing branches) := by
  intro mid stop hmid hstop stage stage' twin hr first hu
  have hwhole := hmid.trans hstop
  have settled := due.settles hmid.le hu
  obtain ⟨h0, alive, _⟩ := due.of_parallel
  rw [Behavior.update_parallel] at hu
  obtain ⟨result, course, rfl⟩ := (Branch.update_iff awaits hmid.le).1 hu
  rw [Behavior.update_parallel]
  simp only [Branch.update_iff awaits hwhole.le]
  by_cases on : real mid < timing.lifespan
  · obtain ⟨cut, seam⟩ := Timing.exists_seam h0 on hmid.le hstop
    rw [seam.before] at course
    rw [seam.whole]
    cases complete : result.complete with
    | true =>
      rw [complete] at settled
      have all := (course.exhausted complete).2
      obtain ⟨within, leftover⟩ := settled.exhausted all
      obtain ⟨idle, behind, same⟩ := Branch.exists_idle all (real now) true result.stage
      obtain ⟨whole, course', echo⟩ := Branch.joins_course hmid seam.later course hm apart inside
        twin hr (.refl _ _) behind
      refine .inl ⟨?_, _, ⟨whole, course', rfl⟩, ?_⟩
      · rw [leftover]
        simpa using within
      · rw [← same]
        exact echo.twin
    | false =>
      rw [complete] at settled
      refine .inr ⟨seam.unfinished, fun second hs => ?_⟩
      have settled' := (settled.due seam.unfinished).settles hstop.le hs
      rw [Behavior.update_parallel] at hs
      obtain ⟨result', behind, rfl⟩ := (Branch.update_iff (.inr rfl) hstop.le).1 hs
      rw [seam.behind] at behind
      obtain ⟨whole, course', echo⟩ := Branch.joins_course hmid seam.later course hm apart inside
        twin hr (.refl _ _) behind
      obtain ⟨time, course'⟩ := course'.with_latest (real now)
      have answer := (Branch.update_iff awaits hwhole.le).2 ⟨_, seam.whole ▸ course', rfl⟩
      rw [← Behavior.update_parallel] at answer
      have settled'' := due.settles hwhole.le answer
      obtain ⟨hb, hp, times, mirrors⟩ := Branch.match_iff.1 echo.branches
      refine ⟨_, ⟨_, course', rfl⟩, ?_, .parallel hb hp apart inside times mirrors, echo.twin⟩
      have flags := echo.complete
      cases complete' : result'.complete with
      | true =>
        rw [complete'] at flags
        have leftover := (settled'.exhausted (behind.exhausted complete').2).2
        have leftover' := (settled''.exhausted (course'.exhausted flags).2).2
        rw [complete'] at leftover
        exact leftover'.trans leftover.symm
      | false =>
        rw [complete'] at flags
        simp only [flags]
        exact seam.same
  · rw [Timing.stopWithin_of_over h0 alive on hstop.le] at course
    have pairs : Branch.Match (fun P b b' => Mirrors P b b' ∧ Simulates P b b') parts branches
        branches := hm.self fun _ _ _ _ h => ⟨h.mirrors, h.mirrors.simulates⟩
    obtain ⟨whole, course', echo⟩ := course.echo pairs apart inside twin
    refine .inl ⟨fun negative => ?_, _, ⟨whole, course', rfl⟩, echo.twin⟩
    exact on (settled.due negative).of_parallel.2.1

end ParticlePatterns
