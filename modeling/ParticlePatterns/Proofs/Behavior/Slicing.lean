import ParticlePatterns.Proofs.Behavior.Branches

/-!
# Slicing

However the time is cut into windows, a composed behavior leaves the sprite in the same
state and is complete at the same time. Two ways to cut the same time are both as good as
one window that covers it all.
-/

set_option autoImplicit false

namespace ParticlePatterns

open Exact (real)

variable {A : Set Component}

theorem Due.joins {now d : ℝ} {b : Behavior Exact} (h : Due now b d) :
    ∀ {A : Set Component}, Mirrors A b b → Joins A now b := by
  induction h with
  | leaf awaits hl h0 hd =>
    intro A mirrors
    cases mirrors with
    | leaf acts => exact joins_leaf (.leaf awaits hl h0 hd) acts
  | emit =>
    intro A mirrors
    cases mirrors
  | @first timing supply current offset fresh δ n total hn hl ht amounts limit due ih =>
    intro A mirrors mid stop hmid hstop stage stage' twin hr first hu
    have hwhole := hmid.trans hstop
    have alive : real 0 < timing.lifespan := Exact.zero_eq_real ▸ hl
    obtain ⟨steady, each⟩ := mirrors.supply
    have gives : ∀ b, supply.Gives b → Joinable A 0 b := fun b hb =>
      ⟨⟨_, due b hb⟩, each b hb, ih b hb (each b hb)⟩
    have settled := (Due.first hn hl ht amounts limit due).settles hmid.le hu
    rw [Behavior.update_chain] at hu ⊢
    obtain ⟨taken, after, rng, hnext, course⟩ := (Chain.update_first_iff hn hmid.le).1 hu
    obtain ⟨⟨rng', hnext'⟩, steady'⟩ := steady.next hnext stage'.rng
    obtain ⟨given, left, _⟩ := Supply.next_eq_ok hnext
    have joined : Joined A mid stop first fun whole => Chain.Course Behavior.update
        { timing with lastStop := some (real stop) } ⟨real 0, real stop⟩
        (Window.stopWithin ⟨real 0, real stop⟩ timing.lifespan) Chain.stepLimit (real 0) after taken
        (real 0) true { stage' with rng := rng' } whole := by
      cases taken with
      | none =>
        obtain ⟨k, hk⟩ : ∃ k, Chain.stepLimit = k + 1 := ⟨_, rfl⟩
        rw [hk] at course ⊢
        cases course
        exact .inl ⟨by simpa using hmid.le, _, .idle, twin⟩
      | some child =>
        obtain ⟨k, rfl, amounts'⟩ := amounts.of_next_some hnext
        have start' : childStart 0 0 true = 0 := rfl
        have twin' : Twin A ({ stage with rng } : Stage Exact).sprite
            ({ stage' with rng := rng' } : Stage Exact).sprite := twin
        have hr' : ({ stage with rng } : Stage Exact).sprite.rotation.IsReal := hr
        exact Chain.joins_turns (Exact.nonneg_of_pos hl) alive hmid hstop amounts'.counts (by omega)
          steady' (fun b hb => gives b (left b hb)) (fun _ => rfl)
          (start' ▸ gives child (given child rfl)) twin' hr' settled course
    exact joined.imp fun whole h =>
      (Chain.update_first_iff hn hwhole.le).2 ⟨taken, after, rng', hnext', h⟩
  | @chain now offset d timing supply child fresh δ n total hs h0 alive ht amounts limit due late
      hdue ih ih' =>
    intro A mirrors mid stop hmid hstop stage stage' twin hr first hu
    have hwhole := hmid.trans hstop
    have settled := (Due.chain hs h0 alive ht amounts limit due late hdue).settles hmid.le hu
    cases mirrors with
    | chain steady each hchild =>
      rw [Behavior.update_chain] at hu ⊢
      have joined := Chain.joins_turns h0 alive hmid hstop amounts.counts limit steady
        (fun b hb => ⟨⟨_, due b hb⟩, each b hb, ih b hb (each b hb)⟩) late
        ⟨⟨_, hdue⟩, hchild, ih' hchild⟩ twin hr settled
        ((Chain.update_running_iff hs hmid.le).1 hu)
      exact joined.imp fun whole h => (Chain.update_running_iff hs hwhole.le).2 h
  | @parallel now timing branches ds awaits h0 alive hnow length left due times ih =>
    intro A mirrors
    have whole := Due.parallel awaits h0 alive hnow length left due times
    cases mirrors with
    | parallel hb hp apart inside same each =>
      have pairs := (Branch.match_iff.2 ⟨hb, hp, same, each⟩ : Branch.Match Mirrors _ _ _)
      refine joins_parallel whole awaits (pairs.self fun p hm hn P mirrors => ?_) apart inside
      obtain ⟨d, paired⟩ := exists_mem_zip length hm
      exact ⟨⟨d, due _ paired hn⟩, mirrors, ih _ paired hn mirrors⟩

def Partition : ℝ → ℝ → List (Window Exact) → Prop
  | now, stop, [] => now = stop
  | now, stop, w :: rest =>
      ∃ mid, now < mid ∧ w = ⟨real now, real mid⟩ ∧ Partition mid stop rest

theorem Partition.le {stop : ℝ} : ∀ {ws : List (Window Exact)} {now : ℝ},
    Partition now stop ws → now ≤ stop
  | [], _, h => le_of_eq h
  | _ :: _, _, ⟨_, hm, _, rest⟩ => hm.le.trans rest.le

theorem Partition.contiguous {stop : ℝ} : ∀ {ws : List (Window Exact)} {now : ℝ},
    Partition now stop ws → Contiguous now ws
  | [], _, _ => trivial
  | _ :: _, _, ⟨mid, hm, hw, rest⟩ => ⟨mid, hm.le, hw, rest.contiguous⟩

def Outcome.completedAt {α : Type} [Scalar α] (o : Outcome α) : Option α :=
  o.completion.map fun (w, leftover) => w.stop - leftover

structure Agrees (A : Set Component) (stop : ℝ) (o : Outcome Exact) (whole : Reply Exact) :
    Prop where
  twin : Twin A o.stage.sprite whole.stage.sprite
  completedAt : o.completedAt =
    if whole.leftover < 0 then none else some (real stop - whole.leftover)

theorem Agrees.trans {stop : ℝ} {o : Outcome Exact} {second whole : Reply Exact}
    (h : Agrees A stop o second) (h' : Alike A second whole) : Agrees A stop o whole where
  twin := h.twin.trans h'.twin
  completedAt := by rw [h.completedAt, h'.leftover]

theorem Due.agrees {stop d : ℝ} (ws : List (Window Exact)) : ∀ {now : ℝ} {b : Behavior Exact}
    {stage stage' : Stage Exact} {whole : Reply Exact} {o : Outcome Exact}, Due now b d →
    Mirrors A b b → now < stop → Partition now stop ws → Twin A stage.sprite stage'.sprite →
    stage.sprite.rotation.IsReal → b.update ⟨real now, real stop⟩ stage' = .ok whole →
    b.through ws stage = .ok o → Agrees A stop o whole := by
  induction ws with
  | nil =>
    intro now b stage stage' whole o _ _ hlt cover
    exact absurd cover hlt.ne
  | cons w rest ih =>
    rintro now b stage stage' whole o due mirrors hlt ⟨mid, hmid, rfl, cover⟩ twin hr hw ho
    obtain ⟨first, hu, settled⟩ := due.keeps mid hmid.le stage
    have settled' := due.settles hlt.le hw
    obtain hm | rfl := cover.le.lt_or_eq
    · obtain ⟨hn, whole', hw', twin'⟩ | ⟨hn, join⟩ :=
        due.joins mirrors mid stop hmid hm stage stage' twin hr first hu
      · rw [hw] at hw'
        cases hw'
        obtain ⟨past, leftover⟩ := settled.complete hn
        have leftover' := settled'.complete_of_lt (past.trans_lt hm)
        rw [Behavior.through_of_nonneg hu (settled.nonneg hn)] at ho
        cases ho
        refine ⟨twin', ?_⟩
        have done : ¬real (stop - d) < 0 := by simpa using past.trans hm.le
        rw [leftover', if_neg done]
        simp [Outcome.completedAt, leftover]
      · rw [Behavior.through_of_not_nonneg hu (Exact.not_le_of_lt hn)] at ho
        have due' := settled.due hn
        obtain ⟨second, hs, _⟩ := due'.keeps stop hm.le first.stage
        obtain ⟨whole', hw', alike⟩ := join second hs
        rw [hw] at hw'
        cases hw'
        exact (ih due' (mirrors.update hu).1 hm cover (.refl _ _) (mirrors.rotation_isReal hu hr) hs
          ho).trans alike
    · obtain ⟨whole', hw', echo⟩ := mirrors.simulates _ stage stage' first twin hu
      rw [hw] at hw'
      cases hw'
      cases rest with
      | nil =>
        by_cases hn : first.leftover < 0
        · rw [Behavior.through_of_not_nonneg hu (Exact.not_le_of_lt hn)] at ho
          cases ho
          exact ⟨echo.twin, by rw [echo.leftover, if_pos hn]; rfl⟩
        · rw [Behavior.through_of_nonneg hu (settled.nonneg hn)] at ho
          cases ho
          exact ⟨echo.twin, by rw [echo.leftover, if_neg hn]; rfl⟩
      | cons w rest =>
        obtain ⟨_, later, _, cover⟩ := cover
        exact absurd cover.le (not_le_of_gt later)

theorem Mirrors.through {ws : List (Window Exact)} : ∀ {b : Behavior Exact} {stage : Stage Exact}
    {o : Outcome Exact}, Mirrors A b b → b.through ws stage = .ok o →
    Twin Aᶜ stage.sprite o.stage.sprite := by
  induction ws with
  | nil =>
    intro b stage o _ ho
    cases ho
    exact .refl _ _
  | cons w rest ih =>
    intro b stage o mirrors ho
    obtain ⟨reply, hu, ho⟩ := bind_eq_ok.1 ho
    obtain ⟨mirrors', kept⟩ := mirrors.update hu
    by_cases nonneg : 0 ≤ reply.leftover
    · rw [if_pos nonneg] at ho
      cases ho
      exact kept
    · rw [if_neg nonneg] at ho
      exact kept.trans (ih mirrors' ho)

/-- Trees of effects that have not been driven, one behind the other or side by side, where
effects that go side by side touch different components. -/
inductive Composed : Set Component → Behavior Exact → Prop
  | effect {A : Set Component} {timing : Timing Exact} {effect : Effect Exact} {d : ℝ} :
      timing.lastStop = none → timing.lifespan = real d → 0 ≤ d → effect.Acts A →
      Composed A (.leaf timing effect)
  | sequence {A : Set Component} {timing : Timing Exact} {bs : List (Behavior Exact)} :
      timing.lastStop = none → 0 < timing.lifespan → bs.length ≤ Chain.stepLimit →
      (∀ b ∈ bs, Composed A b) → Composed A ((Behavior.sequence bs).withTiming timing)
  | repetition {A : Set Component} {timing : Timing Exact} {body : Gen Exact (Behavior Exact)}
      {sibling : Sibling} {n : Nat} {b : Behavior Exact} :
      timing.lastStop = none → 0 < timing.lifespan → n ≤ Chain.stepLimit → body.Total →
      (∀ c, body.Gives c → c = b) → Composed A b →
      Composed A ((Behavior.repetition body sibling n).withTiming timing)
  | together {A : Set Component} {timing : Timing Exact} {bs : List (Behavior Exact)}
      {parts : List (Set Component)} :
      timing.lastStop = none → 0 < timing.lifespan → parts.length = bs.length →
      parts.Pairwise Disjoint → (∀ P ∈ parts, P ⊆ A) → (∀ q ∈ bs.zip parts, Composed q.2 q.1) →
      Composed A ((Behavior.together bs).withTiming timing)

namespace Composed

variable {b : Behavior Exact}

theorem lasts (h : Composed A b) : ∃ d, Lasts b d := by
  induction h with
  | effect hn hl h0 _ => exact ⟨_, .effect hn hl h0⟩
  | sequence hn hl hs _ ih =>
    choose! δ hδ using ih
    exact ⟨_, .sequence hn hl hs hδ⟩
  | repetition hn hl hs ht same _ ih =>
    obtain ⟨d, hd⟩ := ih
    exact ⟨_, .repetition hn hl hs ht fun c hc => same c hc ▸ hd⟩
  | @together A timing bs parts hn hl length _ _ _ ih =>
    have each : ∀ b ∈ bs, ∃ d, Lasts b d := fun b hb => by
      obtain ⟨P, paired⟩ := exists_mem_zip length hb
      exact ih _ paired
    choose! δ hδ using each
    exact ⟨_, .together hn hl hδ⟩

theorem mirrors (h : Composed A b) : Mirrors A b b := by
  induction h with
  | effect _ _ _ acts => exact .leaf acts
  | sequence _ _ _ _ ih => exact .idle trivial ih
  | @repetition A timing body sibling n b _ _ _ ht same _ ih =>
    have made : ∀ {r c after}, body sibling r = .ok (c, after) → c = b := fun h =>
      same _ ⟨_, _, _, h⟩
    refine .idle ⟨b, fun r => ?_⟩ ?_
    · obtain ⟨c, after, hc⟩ := ht sibling r
      exact ⟨after, made hc ▸ hc⟩
    · rintro c ⟨r, after, hc⟩
      rw [made hc]
      exact ih
  | together _ _ length apart inside _ ih =>
    have pairs : Branch.Match Mirrors _ _ _ := .of_zip length ih
    obtain ⟨hb, hp, times, each⟩ := Branch.match_iff.1 pairs
    exact .parallel hb hp apart inside times each

end Composed

/-- Two ways to cut the same time leave the same state behind, with the same completion. -/
theorem slice_independent {b : Behavior Exact} (h : Composed A b) {stop : ℝ} (hstop : 0 < stop)
    {ws ws' : List (Window Exact)} (hw : Partition 0 stop ws) (hw' : Partition 0 stop ws')
    {stage : Stage Exact} (hr : stage.sprite.rotation.IsReal) :
    ∃ o o', b.through ws stage = .ok o ∧ b.through ws' stage = .ok o' ∧
      o.stage.sprite = o'.stage.sprite ∧ o.completedAt = o'.completedAt := by
  obtain ⟨d, lasts⟩ := h.lasts
  have due := lasts.due
  have mirrors := h.mirrors
  obtain ⟨whole, hu, _⟩ := due.keeps stop hstop.le stage
  obtain ⟨o, ho, _⟩ := due.through ws hw.contiguous stage
  obtain ⟨o', ho', _⟩ := due.through ws' hw'.contiguous stage
  have agrees := due.agrees ws mirrors hstop hw (.refl _ _) hr hu ho
  have agrees' := due.agrees ws' mirrors hstop hw' (.refl _ _) hr hu ho'
  refine ⟨o, o', ho, ho', ?_, agrees.completedAt.trans agrees'.completedAt.symm⟩
  have inside := agrees.twin.trans agrees'.twin.symm
  have outside := (mirrors.through ho).symm.trans (mirrors.through ho')
  refine Twin.eq (inside.of_diff ?_)
  rw [← Set.compl_eq_univ_sdiff]
  exact outside

/-- One unit of growing speed, then half a unit of motion beside the closing of the sprite, cut
off in the middle of it: three windows, one of which ends where the first child does, are as
good as one. -/
theorem slice_independent_nested :
    let last (x : ℝ) (b : Behavior Exact) := b.withTiming (.ofLifespan (real x))
    let b := last (5 / 4) (.sequence [last 1 (.modify .speed .set (real 3)),
      .together [last (1 / 2) (.translate ⟨real 2, real 0, real 0⟩), last 0 (.switch .close)]])
    let ws : List (Window Exact) := [⟨real 0, real 2⟩]
    let ws' : List (Window Exact) :=
      [⟨real 0, real 1⟩, ⟨real 1, real (9 / 8)⟩, ⟨real (9 / 8), real 2⟩]
    let stage : Stage Exact := ⟨.initial, .ofSeed 1, #[]⟩
    Composed Set.univ b ∧ Partition 0 2 ws ∧ Partition 0 2 ws' ∧ stage.sprite.rotation.IsReal ∧
      ∃ o o', b.through ws stage = .ok o ∧ b.through ws' stage = .ok o' ∧
        o.stage.sprite = o'.stage.sprite ∧ o.completedAt = o'.completedAt := by
  intro last b ws ws' stage
  have beside : Composed Set.univ (.together [last (1 / 2) (.translate ⟨real 2, real 0, real 0⟩),
      last 0 (.switch .close)]) := by
    have apart : [({.position} : Set Component), {.closed}].Pairwise Disjoint := by simp
    have h : Composed Set.univ ((Behavior.together [last (1 / 2) (.translate ⟨real 2, real 0,
        real 0⟩), last 0 (.switch .close)]).withTiming .unbounded) := by
      refine .together rfl (by simp [Timing.unbounded, Timing.ofLifespan]) rfl apart (by simp) ?_
      simp only [List.zip_cons_cons, List.zip_nil_right, List.mem_cons, List.not_mem_nil, or_false,
        forall_eq_or_imp, forall_eq]
      exact ⟨.effect rfl rfl (by norm_num) ⟨rfl, 2, 0, 0, rfl⟩, .effect rfl rfl (le_refl 0) rfl⟩
    exact h
  have composed : Composed Set.univ b := by
    refine .sequence rfl (by simp [Timing.ofLifespan]) (by decide) ?_
    simp only [List.mem_cons, List.not_mem_nil, or_false, forall_eq_or_imp, forall_eq]
    exact ⟨.effect rfl rfl zero_le_one trivial, beside⟩
  have whole : Partition 0 2 ws := ⟨2, by norm_num, rfl, rfl⟩
  have sliced : Partition 0 2 ws' :=
    ⟨1, by norm_num, rfl, 9 / 8, by norm_num, rfl, 2, by norm_num, rfl, rfl⟩
  have turned : stage.sprite.rotation.IsReal :=
    ⟨0, 0, 0, 1, by simp [stage, Sprite.initial, Quaternion.identity]⟩
  exact ⟨composed, whole, sliced, turned,
    slice_independent composed (by norm_num) whole sliced turned⟩

end ParticlePatterns
