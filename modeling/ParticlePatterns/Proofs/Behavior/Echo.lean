import ParticlePatterns.Proofs.Behavior.Component
import ParticlePatterns.Proofs.Behavior.Course

/-!
# Behaviors that echo each other

What a behavior does depends on the components of the sprite that it touches, and on
nothing else: not on the other components, not on the random state, and not on what is
already complete. Two behaviors that mirror each other answer alike on sprites that are
alike, and leave the rest of their sprites as it is.
-/

set_option autoImplicit false

namespace ParticlePatterns

namespace Supply

variable {α : Type}

def Steady : Supply α → Prop
  | .body make sibling _ => ∃ b, ∀ r, ∃ after, make sibling r = .ok (b, after)
  | .list _ => True

def Counts : Supply α → Nat → Prop
  | .body _ _ remaining, n => remaining = some n
  | .list rest, n => rest.length = n

theorem Steady.next {s after : Supply α} {r rng : Rng} {b : Option (Behavior α)} (h : s.Steady)
    (hn : s.next r = .ok (b, after, rng)) (r' : Rng) :
    (∃ rng', s.next r' = .ok (b, after, rng')) ∧ after.Steady := by
  match s, h with
  | .list [], _ =>
    cases hn
    exact ⟨⟨r', rfl⟩, trivial⟩
  | .list (c :: rest), _ =>
    cases hn
    exact ⟨⟨r', rfl⟩, trivial⟩
  | .body make sibling (some 0), h =>
    cases hn
    exact ⟨⟨r', rfl⟩, h⟩
  | .body make sibling none, ⟨c, hc⟩ =>
    obtain ⟨made, hm⟩ := hc r
    obtain ⟨made', hm'⟩ := hc r'
    rw [Supply.next, hm] at hn
    cases hn
    exact ⟨⟨made', by rw [Supply.next, hm']; rfl⟩, c, hc⟩
  | .body make sibling (some (n + 1)), ⟨c, hc⟩ =>
    obtain ⟨made, hm⟩ := hc r
    obtain ⟨made', hm'⟩ := hc r'
    rw [Supply.next, hm] at hn
    cases hn
    exact ⟨⟨made', by rw [Supply.next, hm']; rfl⟩, c, hc⟩

theorem Counts.next {s after : Supply α} {n : Nat} {r rng : Rng} {b : Behavior α}
    (h : s.Counts n) (hn : s.next r = .ok (some b, after, rng)) :
    ∃ k, n = k + 1 ∧ after.Counts k := by
  match s, h with
  | .list [], _ => cases hn
  | .list (c :: rest), h =>
    cases hn
    exact ⟨rest.length, h.symm, rfl⟩
  | .body make sibling (some 0), _ => cases hn
  | .body make sibling (some (k + 1)), h =>
    obtain ⟨made, _, he⟩ := map_eq_ok.1 hn
    cases he
    exact ⟨k, (Option.some.inj h).symm, rfl⟩

end Supply

inductive Mirrors : Set Component → Behavior Exact → Behavior Exact → Prop
  | leaf {A : Set Component} {timing : Timing Exact} {effect : Effect Exact} : effect.Acts A →
      Mirrors A (.leaf timing effect) (.leaf timing effect)
  | idle {A : Set Component} {timing : Timing Exact} {supply : Supply Exact} {offset : Exact}
      {fresh : Bool} : supply.Steady → (∀ b, supply.Gives b → Mirrors A b b) →
      Mirrors A (.chain timing supply none offset fresh) (.chain timing supply none offset fresh)
  | chain {A : Set Component} {timing : Timing Exact} {supply : Supply Exact}
      {child child' : Behavior Exact} {offset : Exact} {fresh : Bool} : supply.Steady →
      (∀ b, supply.Gives b → Mirrors A b b) → Mirrors A child child' →
      Mirrors A (.chain timing supply (some child) offset fresh)
        (.chain timing supply (some child') offset fresh)
  | parallel {A : Set Component} {timing : Timing Exact}
      {branches branches' : List (Behavior Exact × Option Exact)} {parts : List (Set Component)} :
      branches'.length = branches.length → parts.length = branches.length →
      parts.Pairwise Disjoint → (∀ P ∈ parts, P ⊆ A) →
      (∀ q ∈ branches.zip (branches'.zip parts), q.2.1.2 = q.1.2) →
      (∀ q ∈ branches.zip (branches'.zip parts), q.1.2 = none → Mirrors q.2.2 q.1.1 q.2.1.1) →
      Mirrors A (.parallel timing branches) (.parallel timing branches')

structure Echo (A : Set Component) (before before' : Stage Exact) (reply reply' : Reply Exact) :
    Prop where
  leftover : reply'.leftover = reply.leftover
  behavior : Mirrors A reply.behavior reply'.behavior
  twin : Twin A reply.stage.sprite reply'.stage.sprite
  kept : Twin Aᶜ before.sprite reply.stage.sprite
  kept' : Twin Aᶜ before'.sprite reply'.stage.sprite

def Simulates (A : Set Component) (b b' : Behavior Exact) : Prop :=
  ∀ (w : Window Exact) (stage stage' : Stage Exact) (reply : Reply Exact),
    Twin A stage.sprite stage'.sprite → b.update w stage = .ok reply →
    ∃ reply', b'.update w stage' = .ok reply' ∧ Echo A stage stage' reply reply'

structure Chain.Echo (A : Set Component) (timing timing' : Timing Exact) (w w' : Window Exact)
    (before before' : Stage Exact) (reply reply' : Reply Exact) : Prop where
  leftover : (reply.leftover = timing.verdict w ∧ reply'.leftover = timing'.verdict w') ∨
    ∃ x, reply.leftover = w.stop - x ∧ reply'.leftover = w'.stop - x
  behavior : Mirrors A (reply.behavior.withTiming timing') reply'.behavior
  twin : Twin A reply.stage.sprite reply'.stage.sprite
  kept : Twin Aᶜ before.sprite reply.stage.sprite
  kept' : Twin Aᶜ before'.sprite reply'.stage.sprite

variable {A : Set Component}

def Supply.Reaches (s : Supply Exact) (steps steps' : Nat) : Prop :=
  steps' = steps ∨ ∃ n, s.Counts n ∧ n < steps ∧ n < steps'

section Turns

variable {timing timing' : Timing Exact} {w w' : Window Exact} {cut : Exact}

def Chain.Echoes (A : Set Component) (timing timing' : Timing Exact) (w w' : Window Exact)
    (cut : Exact) (steps : Nat) : Prop :=
  ∀ (stage stage' : Stage Exact) {steps' : Nat} {now : Exact} {supply : Supply Exact}
    {child child' : Behavior Exact} {offset : Exact} {fresh : Bool} {reply : Reply Exact},
    supply.Reaches steps steps' → supply.Steady →
    (∀ b, supply.Gives b → Mirrors A b b ∧ Simulates A b b) →
    Mirrors A child child' → Simulates A child child' → Twin A stage.sprite stage'.sprite →
    Course Behavior.update timing w cut steps now supply (some child) offset fresh stage reply →
    ∃ reply', Course Behavior.update timing' w' cut steps' now supply (some child') offset fresh
      stage' reply' ∧ Chain.Echo A timing timing' w w' stage stage' reply reply'

/-- The time of the turn may differ as long as the next behavior starts at the same time. -/
theorem Chain.After.echo {steps steps' : Nat} {now now' : Exact} {supply : Supply Exact}
    {offset : Exact} {answer answer' reply : Reply Exact}
    (ih : Chain.Echoes A timing timing' w w' cut steps)
    (h : After Behavior.update timing w cut steps now supply offset answer reply)
    (same : ¬answer.leftover < 0 →
      Scalar.max (cut - answer.leftover) now' = Scalar.max (cut - answer.leftover) now)
    (reaches : supply.Reaches (steps + 1) (steps' + 1)) (steady : supply.Steady)
    (gives : ∀ b, supply.Gives b → Mirrors A b b ∧ Simulates A b b)
    (leftover : answer'.leftover = answer.leftover)
    (behavior : Mirrors A answer.behavior answer'.behavior)
    (twin : Twin A answer.stage.sprite answer'.stage.sprite) :
    ∃ reply', After Behavior.update timing' w' cut steps' now' supply offset answer' reply' ∧
      Echo A timing timing' w w' answer.stage answer'.stage reply reply' := by
  cases h with
  | waits hn =>
    refine ⟨_, .waits (leftover ▸ hn), .inl ⟨rfl, rfl⟩, ?_, twin, .refl _ _, .refl _ _⟩
    exact .chain steady (fun b hb => (gives b hb).1) behavior
  | @ends after rng hn hnext =>
    obtain ⟨⟨rng', hnext'⟩, steady'⟩ := steady.next hnext answer'.stage.rng
    obtain ⟨_, left, _⟩ := Supply.next_eq_ok hnext
    have e : Scalar.max (cut - answer'.leftover) now' =
        Scalar.max (cut - answer.leftover) now := leftover ▸ same hn
    refine ⟨_, .ends (leftover ▸ hn) hnext', ?_, ?_, twin, .refl _ _, .refl _ _⟩
    · rw [e]
      exact .inr ⟨_, rfl, rfl⟩
    · rw [e]
      exact .idle steady' fun b hb => (gives b (left b hb)).1
  | @defers after next rng hn hnext hd =>
    obtain ⟨⟨rng', hnext'⟩, steady'⟩ := steady.next hnext answer'.stage.rng
    obtain ⟨given, left, _⟩ := Supply.next_eq_ok hnext
    have e : Scalar.max (cut - answer'.leftover) now' =
        Scalar.max (cut - answer.leftover) now := leftover ▸ same hn
    refine ⟨_, .defers (leftover ▸ hn) hnext' (e ▸ hd), .inl ⟨rfl, rfl⟩, ?_, twin, .refl _ _,
      .refl _ _⟩
    rw [e]
    exact .chain steady' (fun b hb => (gives b (left b hb)).1) (gives next (given next rfl)).1
  | @turns after next rng _ hn hnext hd course =>
    obtain ⟨⟨rng', hnext'⟩, steady'⟩ := steady.next hnext answer'.stage.rng
    obtain ⟨given, left, _⟩ := Supply.next_eq_ok hnext
    have e : Scalar.max (cut - answer'.leftover) now' =
        Scalar.max (cut - answer.leftover) now := leftover ▸ same hn
    obtain ⟨mirrors', simulates'⟩ := gives next (given next rfl)
    have reaches' : after.Reaches steps steps' := by
      obtain e | ⟨n, hc, hs, hk⟩ := reaches
      · exact .inl (by omega)
      · obtain ⟨m, rfl, hm⟩ := hc.next hnext
        exact .inr ⟨m, hm, by omega, by omega⟩
    obtain ⟨reply', course', echo⟩ := ih { answer.stage with rng }
      { answer'.stage with rng := rng' } reaches' steady' (fun b hb => gives b (left b hb))
      mirrors' simulates' twin course
    rw [← e] at course'
    exact ⟨reply', .turns (leftover ▸ hn) hnext' (e ▸ hd) course', echo.leftover, echo.behavior,
      echo.twin, echo.kept, echo.kept'⟩

theorem Chain.echoes (A : Set Component) (timing timing' : Timing Exact) (w w' : Window Exact)
    (cut : Exact) (steps : Nat) : Chain.Echoes A timing timing' w w' cut steps := by
  induction steps with
  | zero =>
    intro stage stage' steps' now supply child child' offset fresh reply reaches steady gives
      mirrors simulates twin course
    obtain rfl | ⟨n, _, hn, _⟩ := reaches
    · cases course
      exact ⟨_, .spent, .inl ⟨rfl, rfl⟩, .chain steady (fun b hb => (gives b hb).1) mirrors, twin,
        .refl _ _, .refl _ _⟩
    · exact absurd hn (Nat.not_lt_zero n)
  | succ steps ih =>
    intro stage stage' steps' now supply child child' offset fresh reply reaches steady gives
      mirrors simulates twin course
    obtain ⟨k, rfl⟩ : ∃ k, steps' = k + 1 := by
      obtain rfl | ⟨n, _, _, hn⟩ := reaches
      · exact ⟨steps, rfl⟩
      · exact ⟨steps' - 1, by omega⟩
    obtain ⟨answer, ha, rest⟩ := Chain.course_succ_iff.1 course
    obtain ⟨answer', ha', head⟩ := simulates _ _ stage' _ twin ha
    obtain ⟨reply', rest', echo⟩ := rest.echo ih (fun _ => rfl) reaches steady gives head.leftover
      head.behavior head.twin
    exact ⟨reply', Chain.course_succ_iff.2 ⟨answer', ha', rest'⟩, echo.leftover, echo.behavior,
      echo.twin, head.kept.trans echo.kept, head.kept'.trans echo.kept'⟩

end Turns

def Branch.Match (R : Set Component → Behavior Exact → Behavior Exact → Prop) :
    List (Set Component) → List (Behavior Exact × Option Exact) →
    List (Behavior Exact × Option Exact) → Prop
  | [], [], [] => True
  | P :: parts, p :: rest, p' :: rest' =>
      p'.2 = p.2 ∧ (p.2 = none → R P p.1 p'.1) ∧ Match R parts rest rest'
  | _, _, _ => False

theorem Branch.match_iff {R : Set Component → Behavior Exact → Behavior Exact → Prop} :
    ∀ {parts : List (Set Component)} {branches branches' : List (Behavior Exact × Option Exact)},
    Match R parts branches branches' ↔
      branches'.length = branches.length ∧ parts.length = branches.length ∧
      (∀ q ∈ branches.zip (branches'.zip parts), q.2.1.2 = q.1.2) ∧
      ∀ q ∈ branches.zip (branches'.zip parts), q.1.2 = none → R q.2.2 q.1.1 q.2.1.1
  | [], [], [] => by simp [Match]
  | P :: parts, p :: rest, p' :: rest' => by
      simp only [Match, match_iff, List.length_cons, List.zip_cons_cons, List.mem_cons,
        forall_eq_or_imp, Nat.add_right_cancel_iff]
      tauto
  | [], [], _ :: _ => by simp [Match]
  | [], _ :: _, _ => by simp [Match]
  | _ :: _, [], _ => by simp [Match]
  | _ :: _, _ :: _, [] => by simp [Match]

namespace Branch.Match

variable {R R' R'' : Set Component → Behavior Exact → Behavior Exact → Prop}

theorem comp (step : ∀ {P Q b b' b''}, R P b b' → R' Q b' b'' → R'' P b b'') :
    ∀ {parts parts' : List (Set Component)}
    {branches branches' branches'' : List (Behavior Exact × Option Exact)},
    Match R parts branches branches' → Match R' parts' branches' branches'' →
    Match R'' parts branches branches''
  | [], parts', [], [], branches'', _, h' => by
      match parts', branches'', h' with
      | [], [], _ => trivial
  | P :: parts, parts', p :: rest, p' :: rest', branches'', ⟨ht, hr, hm⟩, h' => by
      match parts', branches'', h' with
      | Q :: parts', p'' :: rest'', ⟨ht', hr', hm'⟩ =>
        exact ⟨ht'.trans ht, fun hn => step (hr hn) (hr' (ht.trans hn)), comp step hm hm'⟩

/-- What holds of open branches can be added to what relates them to themselves. -/
theorem self : ∀ {parts : List (Set Component)} {branches : List (Behavior Exact × Option Exact)},
    Match R parts branches branches →
    (∀ p ∈ branches, p.2 = none → ∀ P, R P p.1 p.1 → R' P p.1 p.1) →
    Match R' parts branches branches
  | [], [], _, _ => trivial
  | P :: _, p :: _, ⟨_, hr, hm⟩, more =>
      ⟨rfl, fun hn => more p List.mem_cons_self hn P (hr hn),
        self hm fun q hq => more q (List.mem_cons_of_mem _ hq)⟩

theorem of_zip : ∀ {bs : List (Behavior Exact)} {parts : List (Set Component)},
    parts.length = bs.length → (∀ q ∈ bs.zip parts, R q.2 q.1 q.1) →
    Match R parts (bs.map (·, none)) (bs.map (·, none))
  | [], [], _, _ => trivial
  | b :: bs, P :: parts, length, h => by
      simp only [List.zip_cons_cons, List.mem_cons, forall_eq_or_imp] at h
      exact ⟨rfl, fun _ => h.1, of_zip (by simpa using length) h.2⟩

end Branch.Match

def untouched (parts : List (Set Component)) : Set Component :=
  fun c => ∀ P ∈ parts, c ∉ P

theorem subset_untouched {P : Set Component} {parts : List (Set Component)}
    (h : ∀ Q ∈ parts, Disjoint P Q) : P ⊆ untouched parts :=
  fun _ hc Q hQ hc' => Set.disjoint_left.1 (h Q hQ) hc hc'

theorem untouched_cons_subset (P : Set Component) (parts : List (Set Component)) :
    untouched (P :: parts) ⊆ untouched parts ∧ untouched (P :: parts) ⊆ Pᶜ :=
  ⟨fun _ hc Q hQ => hc Q (List.mem_cons_of_mem _ hQ), fun _ hc => hc P List.mem_cons_self⟩

structure Branch.Echo (S : Set Component) (parts : List (Set Component))
    (before before' : Stage Exact) (result result' : Branch.Result Exact) : Prop where
  latest : result'.latest = result.latest
  complete : result'.complete = result.complete
  branches : Match Mirrors parts result.branches result'.branches
  twin : Twin S result.stage.sprite result'.stage.sprite
  kept : Twin (untouched parts) before.sprite result.stage.sprite
  kept' : Twin (untouched parts) before'.sprite result'.stage.sprite

theorem Branch.Echo.cons {S P : Set Component} {parts : List (Set Component)}
    {before before' stage stage' : Stage Exact} {b b' : Behavior Exact} {time : Option Exact}
    {result result' : Result Exact} (apart : ∀ Q ∈ parts, Disjoint P Q)
    (behavior : time = none → Mirrors P b b') (twin : Twin P stage.sprite stage'.sprite)
    (kept : Twin Pᶜ before.sprite stage.sprite) (kept' : Twin Pᶜ before'.sprite stage'.sprite)
    (h : Echo (S \ P) parts stage stage' result result') :
    Echo S (P :: parts) before before'
      { result with branches := (b, time) :: result.branches }
      { result' with branches := (b', time) :: result'.branches } where
  latest := h.latest
  complete := h.complete
  branches := ⟨rfl, behavior, h.branches⟩
  twin := by
    have out := subset_untouched apart
    have inside : Twin P result.stage.sprite result'.stage.sprite :=
      ((h.kept.mono out).symm.trans twin).trans (h.kept'.mono out)
    exact inside.of_diff h.twin
  kept := by
    obtain ⟨rest, first⟩ := untouched_cons_subset P parts
    exact (kept.mono first).trans (h.kept.mono rest)
  kept' := by
    obtain ⟨rest, first⟩ := untouched_cons_subset P parts
    exact (kept'.mono first).trans (h.kept'.mono rest)

/-- Behind the first part the other parts lie in what is left. -/
theorem subset_diff_of_pairwise {S P : Set Component} {parts : List (Set Component)}
    (apart : (P :: parts).Pairwise Disjoint) (inside : ∀ Q ∈ P :: parts, Q ⊆ S) :
    ∀ Q ∈ parts, Q ⊆ S \ P := by
  intro Q hQ c hc
  have disjoint := (List.pairwise_cons.1 apart).1 Q hQ
  exact ⟨inside Q (List.mem_cons_of_mem _ hQ) hc, fun hp => Set.disjoint_left.1 disjoint hp hc⟩

theorem Branch.Course.echo {start stop latest : Exact} {complete : Bool} {stage : Stage Exact}
    {branches : List (Behavior Exact × Option Exact)} {result : Branch.Result Exact}
    (h : Course Behavior.update start stop branches latest complete stage result) :
    ∀ {S : Set Component} {parts : List (Set Component)}
    {branches' : List (Behavior Exact × Option Exact)} {stage' : Stage Exact},
    Match (fun P b b' => Mirrors P b b' ∧ Simulates P b b') parts branches branches' →
    parts.Pairwise Disjoint → (∀ P ∈ parts, P ⊆ S) → Twin S stage.sprite stage'.sprite →
    ∃ result', Course Behavior.update start stop branches' latest complete stage' result' ∧
      Echo S parts stage stage' result result' := by
  induction h with
  | nil =>
    intro S parts branches' stage' hm _ _ twin
    match parts, branches', hm with
    | [], [], _ => exact ⟨_, .nil, rfl, rfl, trivial, twin, .refl _ _, .refl _ _⟩
  | @done b time latest rest complete stage result _ ih =>
    intro S parts branches' stage' hm apart inside twin
    match parts, branches', hm with
    | P :: parts, (b', time') :: rest', ⟨ht, _, hm⟩ =>
      obtain rfl : time' = some time := ht
      have disjoint := List.pairwise_cons.1 apart
      obtain ⟨result', course, echo⟩ := ih hm disjoint.2 (subset_diff_of_pairwise apart inside)
        (twin.mono Set.sdiff_subset)
      exact ⟨_, .done course, echo.cons disjoint.1 (fun hn => by cases hn)
        (twin.mono (inside P List.mem_cons_self)) (.refl _ _) (.refl _ _)⟩
  | @waits b latest rest complete stage answer result ha hn _ ih =>
    intro S parts branches' stage' hm apart inside twin
    match parts, branches', hm with
    | P :: parts, (b', time') :: rest', ⟨ht, hr, hm⟩ =>
      obtain rfl : time' = none := ht
      have disjoint := List.pairwise_cons.1 apart
      obtain ⟨answer', ha', head⟩ := (hr rfl).2 _ _ stage' _
        (twin.mono (inside P List.mem_cons_self)) ha
      obtain ⟨result', course, echo⟩ := ih hm disjoint.2 (subset_diff_of_pairwise apart inside)
        (twin.carry head.kept head.kept')
      exact ⟨_, .waits ha' (head.leftover ▸ hn) course,
        echo.cons disjoint.1 (fun _ => head.behavior) head.twin head.kept head.kept'⟩
  | @ends b latest rest complete stage answer result ha hn _ ih =>
    intro S parts branches' stage' hm apart inside twin
    match parts, branches', hm with
    | P :: parts, (b', time') :: rest', ⟨ht, hr, hm⟩ =>
      obtain rfl : time' = none := ht
      have disjoint := List.pairwise_cons.1 apart
      obtain ⟨answer', ha', head⟩ := (hr rfl).2 _ _ stage' _
        (twin.mono (inside P List.mem_cons_self)) ha
      obtain ⟨result', course, echo⟩ := ih hm disjoint.2 (subset_diff_of_pairwise apart inside)
        (twin.carry head.kept head.kept')
      have time : stop - answer'.leftover = stop - answer.leftover := by rw [head.leftover]
      rw [← time] at course
      refine ⟨_, .ends ha' (head.leftover ▸ hn) course, ?_⟩
      rw [time]
      exact echo.cons disjoint.1 (fun hn => by cases hn) head.twin head.kept head.kept'

def Paired (A : Set Component) : Option (Behavior Exact) → Option (Behavior Exact) → Prop
  | none, none => True
  | some b, some b' => Mirrors A b b' ∧ Simulates A b b'
  | _, _ => False

theorem Chain.Course.echo_paired {timing timing' : Timing Exact} {w w' : Window Exact}
    {cut now offset : Exact} {steps steps' : Nat} {supply : Supply Exact}
    {current current' : Option (Behavior Exact)} {fresh : Bool} {stage stage' : Stage Exact}
    {reply : Reply Exact} (hsteps : 0 < steps) (hsteps' : 0 < steps')
    (reaches : supply.Reaches steps steps') (steady : supply.Steady)
    (gives : ∀ b, supply.Gives b → Mirrors A b b ∧ Simulates A b b)
    (paired : Paired A current current') (twin : Twin A stage.sprite stage'.sprite)
    (h : Course Behavior.update timing w cut steps now supply current offset fresh stage reply) :
    ∃ reply', Course Behavior.update timing' w' cut steps' now supply current' offset fresh
      stage' reply' ∧ Echo A timing timing' w w' stage stage' reply reply' := by
  match current, current', paired with
  | some b, some b', ⟨mirrors, simulates⟩ =>
    exact Chain.echoes A timing timing' w w' cut steps stage stage' reaches steady gives mirrors
      simulates twin h
  | none, none, _ =>
    obtain ⟨k, rfl⟩ : ∃ k, steps' = k + 1 := ⟨steps' - 1, by omega⟩
    cases h with
    | spent => exact absurd hsteps (Nat.lt_irrefl 0)
    | idle =>
      exact ⟨_, .idle, .inr ⟨now, rfl, rfl⟩, .idle steady fun b hb => (gives b hb).1, twin,
        .refl _ _, .refl _ _⟩

theorem Chain.Echo.same_timing {timing : Timing Exact} {w w' : Window Exact}
    {before before' : Stage Exact} {reply reply' : Reply Exact}
    (h : Echo A timing timing w w' before before' reply reply')
    (ht : reply.behavior.timing = timing) (hs : w'.stop = w.stop)
    (hv : timing.verdict w' = timing.verdict w) :
    ParticlePatterns.Echo A before before' reply reply' where
  leftover := by
    obtain ⟨e, e'⟩ | ⟨x, e, e'⟩ := h.leftover
    · rw [e, e', hv]
    · rw [e, e', hs]
  behavior := by
    have mirrors := h.behavior
    rw [← ht, Behavior.withTiming_timing] at mirrors
    exact mirrors
  twin := h.twin
  kept := h.kept
  kept' := h.kept'

theorem Chain.simulates {timing : Timing Exact} {supply : Supply Exact}
    {current current' : Option (Behavior Exact)} {offset : Exact} {fresh : Bool}
    (steady : supply.Steady) (gives : ∀ b, supply.Gives b → Mirrors A b b ∧ Simulates A b b)
    (paired : Paired A current current') :
    Simulates A (.chain timing supply current offset fresh)
      (.chain timing supply current' offset fresh) := by
  intro w stage stage' reply twin h
  have positive : 0 < stepLimit := by decide
  rw [Behavior.update_chain] at h
  obtain ⟨first, entered, he, h⟩ := Chain.update_eq_ok.1 h
  have settled : ∀ reply', Chain.update timing
      (.wakeBy Behavior.update supply current' offset fresh) w stage' = .ok reply' →
      (Behavior.chain timing supply current' offset fresh).update w stage' =
        .ok reply' := fun _ h => by rw [Behavior.update_chain, h]
  cases first with
  | false =>
    obtain ⟨reply', course, echo⟩ := h.echo_paired positive positive (.inl rfl) steady gives paired
      twin
    exact ⟨reply', settled _ (Chain.update_eq_ok.2 ⟨_, _, he, course⟩),
      echo.same_timing h.timing_eq rfl rfl⟩
  | true =>
    obtain ⟨taken, after, rng, hnext, h⟩ := h
    obtain ⟨⟨rng', hnext'⟩, steady'⟩ := steady.next hnext stage'.rng
    obtain ⟨given, left, _⟩ := Supply.next_eq_ok hnext
    have paired' : Paired A taken taken := by
      cases taken with
      | none => trivial
      | some b => exact gives b (given b rfl)
    have twin' : Twin A ({ stage with rng } : Stage Exact).sprite
        ({ stage' with rng := rng' } : Stage Exact).sprite := twin
    obtain ⟨reply', course, echo⟩ := h.echo_paired positive positive (.inl rfl) steady'
      (fun b hb => gives b (left b hb)) paired' twin'
    refine ⟨reply', settled _ (Chain.update_eq_ok.2 ⟨_, _, he, taken, after, rng', hnext', course⟩),
      ?_⟩
    have same := echo.same_timing h.timing_eq rfl rfl
    exact ⟨same.leftover, same.behavior, same.twin, same.kept, same.kept'⟩

theorem Mirrors.simulates {b b' : Behavior Exact} (h : Mirrors A b b') : Simulates A b b' := by
  induction h with
  | @leaf A timing effect acts =>
    intro w stage stage' reply twin h
    obtain ⟨first, entered, he, rfl⟩ := Effect.update_eq_ok.1 h
    obtain ⟨acts', kept⟩ := acts.apply entered first w stage.sprite
    obtain ⟨_, kept'⟩ := acts.apply entered first w stage'.sprite
    obtain ⟨same, twin'⟩ := acts.apply_twin entered first w twin
    refine ⟨_, Effect.update_eq_ok.2 ⟨first, entered, he, rfl⟩, rfl, ?_, twin', kept, kept'⟩
    rw [← same]
    exact .leaf acts'
  | idle steady mirrors ih =>
    exact Chain.simulates steady (fun b hb => ⟨mirrors b hb, ih b hb⟩) trivial
  | chain steady mirrors child ih ih' =>
    exact Chain.simulates steady (fun b hb => ⟨mirrors b hb, ih b hb⟩) ⟨child, ih'⟩
  | @parallel A timing branches branches' parts hb hp apart inside times mirrors ih =>
    intro w stage stage' reply twin h
    have pairs : Branch.Match (fun P b b' => Mirrors P b b' ∧ Simulates P b b') parts branches
        branches' :=
      Branch.match_iff.2 ⟨hb, hp, times, fun q hq hn => ⟨mirrors q hq hn, ih q hq hn⟩⟩
    rw [Behavior.update_parallel] at h
    obtain ⟨first, entered, result, he, course, rfl⟩ := Branch.update_eq_ok.1 h
    obtain ⟨result', course', echo⟩ := course.echo pairs apart inside twin
    have out : Aᶜ ⊆ untouched parts := fun c hc P hP hcP => hc (inside P hP hcP)
    have answered := Branch.update_eq_ok.2 ⟨first, entered, result', he, course', rfl⟩
    rw [← Behavior.update_parallel] at answered
    obtain ⟨hb', hp', times', mirrors'⟩ := Branch.match_iff.1 echo.branches
    refine ⟨_, answered, ?_, ?_, echo.twin, echo.kept.mono out, echo.kept'.mono out⟩
    · rw [echo.complete, echo.latest]
    · exact .parallel hb' hp' apart inside times' mirrors'

/-- Whatever else the second pair may touch. -/
theorem Mirrors.trans {B : Set Component} {b b' b'' : Behavior Exact} (h : Mirrors A b b')
    (h' : Mirrors B b' b'') : Mirrors A b b'' := by
  induction h generalizing B b'' with
  | leaf acts =>
    cases h'
    exact .leaf acts
  | idle steady mirrors =>
    cases h'
    exact .idle steady mirrors
  | chain steady mirrors _ _ ih =>
    cases h' with
    | chain _ _ child => exact .chain steady mirrors (ih child)
  | parallel hb hp apart inside times _ ih =>
    cases h' with
    | parallel hb' hp' _ _ times' mirrors' =>
      have first := (Branch.match_iff
        (R := fun P b b' => ∀ {Q : Set Component} {b''}, Mirrors Q b' b'' → Mirrors P b b'')).2
        ⟨hb, hp, times, fun q hq hn _ _ => ih q hq hn⟩
      have second := Branch.match_iff.2 ⟨hb', hp', times', mirrors'⟩
      have both : Branch.Match Mirrors _ _ _ := first.comp (fun hr h' => hr h') second
      obtain ⟨hb, hp, times, mirrors⟩ := Branch.match_iff.1 both
      exact .parallel hb hp apart inside times mirrors

end ParticlePatterns
