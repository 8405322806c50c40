import ParticlePatterns.Proofs.Behavior.Emission

/-!
# Telescoping

The changes that an effect makes window by window add up to its share so far, whatever the
windows and whatever others do to the sprite in between, as long as they leave alone what the
effect touches. Whether an effect is complete is told by its lifespan and not by its share, and
the two agree: what is complete has come whole, and a switch has been thrown once.
-/

set_option autoImplicit false

namespace ParticlePatterns

open Exact (real)

structure Passage (α : Type) where
  window : Window α
  found : Stage α
  reply : Reply α

namespace Passage

variable {α : Type}

def list (runs : List (Window α × Stage α)) (replies : List (Reply α)) : List (Passage α) :=
  List.zipWith (fun run reply => ⟨run.1, run.2, reply⟩) runs replies

def Undisturbed (A : Set Component) (passages : List (Passage α)) : Prop :=
  passages.IsChain fun u v => Twin A u.reply.stage.sprite v.found.sprite

end Passage

namespace Effect

theorem apply_lastStop {α : Type} [Scalar α] (e : Effect α) (t : Timing α) (stop : Option α)
    (first : Bool) (w : Window α) (s : Sprite α) :
    e.apply { t with lastStop := stop } first w s = e.apply t first w s := by
  cases e with
  | modify p how operand initial => cases how <;> rfl
  | _ => rfl

theorem apply_switch {α : Type} [Scalar α] (action : Action) (fired : Bool) (t : Timing α)
    (first : Bool) (w : Window α) (s : Sprite α) :
    (switch action fired).apply t first w s =
      (switch action (fired || decide (1 ≤ t.progress w.stop)),
        if fired = false ∧ 1 ≤ t.progress w.stop then action.apply s else s) := by
  cases fired <;> by_cases whole : 1 ≤ t.progress w.stop <;> simp [apply, whole]

section

variable (t : Timing Exact)

inductive Passes : ℝ → Bool → Effect Exact → List (Passage Exact) → Prop
  | nil {now : ℝ} {first : Bool} {e : Effect Exact} : Passes now first e []
  | cons {now stop : ℝ} {first : Bool} {e : Effect Exact} {found : Stage Exact}
      {reply : Reply Exact} {rest : List (Passage Exact)} : now < stop →
      reply.leftover = t.verdict ⟨real now, real stop⟩ →
      reply.behavior = .leaf { t with lastStop := some (real stop) }
        (e.apply t first ⟨real now, real stop⟩ found.sprite).1 →
      reply.stage =
        { found with sprite := (e.apply t first ⟨real now, real stop⟩ found.sprite).2 } →
      Passes stop false (e.apply t first ⟨real now, real stop⟩ found.sprite).1 rest →
      Passes now first e (⟨⟨real now, real stop⟩, found, reply⟩ :: rest)

end

theorem exists_passes {n stop : ℝ} {easing : Easing} (runs : List (Window Exact × Stage Exact)) :
    ∀ {now : ℝ} {last : Option Exact} {e : Effect Exact},
      (⟨easing, real n, last⟩ : Timing Exact).Awaits now →
      Partition now stop (runs.map Prod.fst) →
      ∃ replies, (Behavior.leaf ⟨easing, real n, last⟩ e).across runs = .ok replies ∧
        replies.length = runs.length ∧
        Passes ⟨easing, real n, none⟩ now (!last.isSome) e (Passage.list runs replies) := by
  induction runs with
  | nil => exact fun _ _ => ⟨[], rfl, rfl, .nil⟩
  | cons run rest ih =>
    obtain ⟨w, found⟩ := run
    rintro now last e awaits ⟨mid, later, rfl, cover⟩
    have hu := awaits.update_leaf later.le e found
    have awaits' : (⟨easing, real n, some (real mid)⟩ : Timing Exact).Awaits mid := .inr rfl
    obtain ⟨replies, hr, length, passes⟩ := ih awaits' cover
      (e := (e.apply ⟨easing, real n, last⟩ (!last.isSome) ⟨real now, real mid⟩ found.sprite).1)
    refine ⟨_ :: replies, bind_eq_ok.2 ⟨_, hu, bind_eq_ok.2 ⟨_, hr, rfl⟩⟩, by simp [length], ?_⟩
    have same := e.apply_lastStop ⟨easing, real n, none⟩ last (!last.isSome)
      ⟨real now, real mid⟩ found.sprite
    exact .cons later rfl (by rw [← same]; rfl) (by rw [← same]; rfl) (by rw [← same]; exact passes)

def Brings (e : Effect Exact) (share : Exact) (before after : Sprite Exact) : Prop :=
  match e with
  | pause => True
  | modify p .set operand _ => after.get p = before.get p * (1 - share) + operand * share
  | modify p .add operand _ => after.get p = before.get p + operand * share
  | modify _ .multiply _ _ => False
  | switch (.become model) fired =>
      fired = false → after.model = if 1 ≤ share then model else before.model
  | switch .close fired =>
      fired = false → after.closed = if 1 ≤ share then true else before.closed
  | translate offset =>
      after.position = before.position.add (before.rotation.rotate (offset.scale share))
  | rotate _ => False

variable {A : Set Component} {t : Timing Exact} {n now : ℝ} {e : Effect Exact}

/-- The first window brings its share. -/
theorem Acts.brings (h : e.Acts A) (hl : t.lifespan = real n) {stop : ℝ}
    {before after : Sprite Exact}
    (twin : Twin A after (e.apply t true ⟨real 0, real stop⟩ before).2) :
    e.Brings (t.progress (real stop)) before after := by
  have share : t.delta ⟨real 0, real stop⟩ = t.progress (real stop) := by
    rw [Timing.delta_real hl, Timing.progress_real hl, Easing.realShare_zero, sub_zero]
  match e, h with
  | pause, _ => exact trivial
  | modify p .set operand initial, h =>
    have set : after.get p = _ := twin.2 _ h
    rwa [Effect.apply, Sprite.get_set] at set
  | modify p .add operand initial, h =>
    have add : after.get p = _ := twin.2 _ h.1
    rwa [Effect.apply, Sprite.modify, Sprite.get_set, share] at add
  | switch (.become model) fired, h =>
    rintro rfl
    have thrown : after.model = _ := twin.2 .model h
    simp only [Effect.apply, true_and] at thrown
    split at thrown
    · rwa [if_pos ‹_›]
    · rwa [if_neg ‹_›]
  | switch .close fired, h =>
    rintro rfl
    have thrown : after.closed = _ := twin.2 .closed h
    simp only [Effect.apply, true_and] at thrown
    split at thrown
    · rwa [if_pos ‹_›]
    · rwa [if_neg ‹_›]
  | translate offset, h =>
    have moved : after.position = _ := twin.2 _ h.1
    rwa [Effect.apply, Sprite.translate, share] at moved

namespace Passes

theorem of_mem {first : Bool} {passages : List (Passage Exact)}
    (h : Passes t now first e passages) : ∀ v ∈ passages, ∃ start stop, now ≤ start ∧
      start < stop ∧ v.window = ⟨real start, real stop⟩ ∧
      v.reply.leftover = t.verdict v.window := by
  induction h with
  | nil => simp
  | @cons now stop first e found reply rest later verdict _ _ _ ih =>
    simp only [List.mem_cons, forall_eq_or_imp]
    refine ⟨⟨now, stop, le_rfl, later, rfl, verdict⟩, fun v hv => ?_⟩
    obtain ⟨a, b, ha, hab, window⟩ := ih v hv
    exact ⟨a, b, later.le.trans ha, hab, window⟩

/-- Each window leaves alone what the effect does not touch. -/
theorem twin {first : Bool} {passages : List (Passage Exact)} (h : Passes t now first e passages)
    (acts : e.Acts A) : ∀ v ∈ passages, Twin Aᶜ v.found.sprite v.reply.stage.sprite := by
  induction h with
  | nil => simp
  | @cons now stop first e found reply rest _ _ _ stage _ ih =>
    obtain ⟨acts', twin⟩ := acts.apply t first ⟨real now, real stop⟩ found.sprite
    simp only [List.mem_cons, forall_eq_or_imp]
    exact ⟨by simpa only [stage] using twin, ih acts'⟩

/-- Up to a passage, an undisturbed effect has come to what one window would have done to what
it found first. The last sprite so far carries the induction. -/
theorem undisturbed_running (hl : t.lifespan = real n) (acts : e.Acts A) {s : Sprite Exact}
    (hr : s.rotation.IsReal) {v : Passage Exact} {behind : List (Passage Exact)}
    (before : List (Passage Exact)) : ∀ {now : ℝ} {last : Passage Exact},
    Twin A last.reply.stage.sprite (e.apply t true ⟨real 0, real now⟩ s).2 →
    Passes t now false (e.apply t true ⟨real 0, real now⟩ s).1 (before ++ v :: behind) →
    Passage.Undisturbed A (last :: (before ++ [v])) →
    ∃ stop, v.window.stop = real stop ∧
      Twin A v.reply.stage.sprite (e.apply t true ⟨real 0, real stop⟩ s).2 := by
  -- One more window, found as the last one was left, makes the one window longer.
  have onward : ∀ {now stop : ℝ} {last : Passage Exact} {found : Stage Exact}, now < stop →
      Twin A last.reply.stage.sprite (e.apply t true ⟨real 0, real now⟩ s).2 →
      Twin A last.reply.stage.sprite found.sprite →
      let applied := (e.apply t true ⟨real 0, real now⟩ s).1.apply t false
        ⟨real now, real stop⟩ found.sprite
      applied.1 = (e.apply t true ⟨real 0, real stop⟩ s).1 ∧
        Twin A applied.2 (e.apply t true ⟨real 0, real stop⟩ s).2 := by
    intro now stop last found later twin kept applied
    have whole := acts.apply_apply hl later.le (a := 0) true hr
    obtain ⟨effect, sprite⟩ := (acts.apply t true ⟨real 0, real now⟩ s).1.apply_twin t false
      ⟨real now, real stop⟩ (kept.symm.trans twin)
    rw [whole] at effect sprite
    exact ⟨effect, sprite⟩
  induction before with
  | nil =>
    rintro now last twin passes chain
    cases passes with
    | @cons _ stop _ _ found reply _ later _ _ stage _ =>
      have kept := (List.isChain_cons_cons.1 chain).1
      refine ⟨stop, rfl, ?_⟩
      simp only [stage]
      exact (onward later twin kept).2
  | cons u before ih =>
    rintro now last twin passes chain
    cases passes with
    | @cons _ stop _ _ found reply _ later _ _ stage rest =>
      obtain ⟨kept, chain⟩ := List.isChain_cons_cons.1 chain
      obtain ⟨effect, sprite⟩ := onward later twin kept
      rw [effect] at rest
      refine ih ?_ rest chain
      simp only [stage]
      exact sprite

theorem undisturbed (hl : t.lifespan = real n) (acts : e.Acts A)
    {before behind : List (Passage Exact)} {v : Passage Exact}
    (h : Passes t 0 true e (before ++ v :: behind))
    (kept : Passage.Undisturbed A (before ++ [v])) {s : Sprite Exact} (hr : s.rotation.IsReal)
    (hs : ((before ++ [v]).map fun u => u.found.sprite).head? = some s) :
    ∃ stop, v.window.stop = real stop ∧
      Twin A v.reply.stage.sprite (e.apply t true ⟨real 0, real stop⟩ s).2 := by
  cases before with
  | nil =>
    cases hs
    cases h with
    | @cons _ stop _ _ found reply _ _ _ _ stage _ =>
      refine ⟨stop, rfl, ?_⟩
      simp only [stage]
      exact .refl A _
  | cons u before =>
    cases hs
    cases h with
    | @cons _ stop _ _ found reply _ _ _ _ stage rest =>
      refine undisturbed_running hl acts hr before ?_ rest kept
      simp only [stage]
      exact .refl A _

/-- A switch is thrown in the first window by whose end the whole share has come. -/
theorem switch {action : Action} {v : Passage Exact} {behind : List (Passage Exact)}
    (before : List (Passage Exact)) : ∀ {now : ℝ} {first fired : Bool},
    Passes t now first (.switch action fired) (before ++ v :: behind) →
    v.reply.stage.sprite = if fired = false ∧ (∀ u ∈ before, ¬1 ≤ t.progress u.window.stop) ∧
      1 ≤ t.progress v.window.stop then action.apply v.found.sprite else v.found.sprite := by
  induction before with
  | nil =>
    intro now first fired h
    cases h with
    | cons _ _ _ stage _ =>
      simp only [stage, apply_switch, List.not_mem_nil, false_imp_iff, implies_true, true_and]
  | cons u before ih =>
    intro now first fired h
    cases h with
    | @cons _ stop _ _ found reply _ _ _ _ _ rest =>
      rw [apply_switch] at rest
      rw [ih rest]
      simp only [Bool.or_eq_false_iff, decide_eq_false_iff_not, List.mem_cons, forall_eq_or_imp,
        and_assoc]

/-- A switch keeps in mind whether it has been thrown. -/
theorem switch_fired {action : Action} {v : Passage Exact} {behind : List (Passage Exact)}
    (before : List (Passage Exact)) : ∀ {now : ℝ} {first fired : Bool},
    Passes t now first (.switch action fired) (before ++ v :: behind) →
    ∃ fired', v.reply.behavior =
        .leaf { t with lastStop := some v.window.stop } (.switch action fired') ∧
      (fired' = true ↔ fired = true ∨ ∃ u ∈ before ++ [v], 1 ≤ t.progress u.window.stop) := by
  induction before with
  | nil =>
    intro now first fired h
    cases h with
    | @cons _ stop _ _ found reply _ _ _ kept _ _ =>
      rw [apply_switch] at kept
      exact ⟨_, kept, by simp only [Bool.or_eq_true, decide_eq_true_eq, List.nil_append,
        List.mem_singleton, exists_eq_left]⟩
  | cons u before ih =>
    intro now first fired h
    cases h with
    | @cons _ stop _ _ found reply _ _ _ _ _ rest =>
      rw [apply_switch] at rest
      obtain ⟨fired', kept, once⟩ := ih rest
      refine ⟨fired', kept, ?_⟩
      simp only [once, Bool.or_eq_true, decide_eq_true_eq, List.cons_append, List.mem_cons,
        exists_eq_or_imp, or_assoc]

end Passes

end Effect

/-- Whatever the windows and whatever the stages they find, an effect with a finite lifespan goes
on until its lifespan is over, and then tells the time since; by then its whole share has come.
No window changes anything but what the effect touches. As long as nobody else changes that or
the rotation, any window leaves what the share so far makes of the first sprite found. A switch
is thrown in the first window by whose end the share is whole, and in no other one: that window
leaves its model, or closes the sprite, and the switch keeps it in mind. -/
theorem effect_telescopes {A : Set Component} {e : Effect Exact} (acts : e.Acts A)
    (easing : Easing) {n now : ℝ} {runs : List (Window Exact × Stage Exact)}
    (hw : Partition 0 now (runs.map Prod.fst)) :
    let share (time : Exact) : Exact := easing.progress time (real n)
    ∃ replies, (Behavior.leaf ⟨easing, real n, none⟩ e).across runs = .ok replies ∧
      replies.length = runs.length ∧
      ∀ before v behind, Passage.list runs replies = before ++ v :: behind →
        Twin Aᶜ v.found.sprite v.reply.stage.sprite ∧
        (v.window.stop < real n → v.reply.leftover < 0) ∧
        (real n ≤ v.window.stop → share v.window.stop = 1 ∧
          v.reply.leftover = v.window.stop - Scalar.max (real n) v.window.start) ∧
        (Passage.Undisturbed A (before ++ [v]) → ∀ s : Sprite Exact, s.rotation.IsReal →
          ((before ++ [v]).map fun u => u.found.sprite).head? = some s →
          e.Brings (share v.window.stop) s v.reply.stage.sprite) ∧
        ∀ action, e = .switch action false →
          let thrown := (∀ u ∈ before, ¬1 ≤ share u.window.stop) ∧ 1 ≤ share v.window.stop
          (thrown → match action with
            | .become model => v.reply.stage.sprite = { v.found.sprite with model }
            | .close => v.reply.stage.sprite = { v.found.sprite with closed := true }) ∧
          (¬thrown → v.reply.stage.sprite = v.found.sprite) ∧
          ∃ fired, v.reply.behavior =
              .leaf ⟨easing, real n, some v.window.stop⟩ (.switch action fired) ∧
            (fired = true ↔ ∃ u ∈ before ++ [v], 1 ≤ share u.window.stop) := by
  intro share
  have new : (⟨easing, real n, none⟩ : Timing Exact).Awaits 0 := .inl ⟨rfl, rfl⟩
  obtain ⟨replies, hr, length, passes⟩ := Effect.exists_passes runs new hw (e := e)
  refine ⟨replies, hr, length, fun before v behind here => ?_⟩
  rw [here] at passes
  obtain ⟨start, stop, hs, later, window, verdict⟩ := passes.of_mem v (by simp)
  have whole : share (real stop) = real (easing.realShare n stop) :=
    Timing.progress_real (t := ⟨easing, real n, none⟩) rfl stop
  rw [window] at verdict ⊢
  refine ⟨passes.twin acts v (by simp), fun open' => ?_, fun past => ?_, fun kept s hr hs => ?_, ?_⟩
  · have below : stop < n := open'
    simp [verdict, Timing.verdict, not_le_of_gt below]
  · have past : n ≤ stop := past
    refine ⟨?_, ?_⟩
    · rw [whole, easing.realShare_of_le past (hs.trans_lt later), Exact.one_eq_real]
    · simp [verdict, Timing.verdict, past]
  · obtain ⟨stop', e', twin⟩ := passes.undisturbed rfl acts kept hr hs
    rw [window] at e'
    cases e'
    exact acts.brings rfl twin
  · rintro action rfl thrown
    have sprite := passes.switch before
    obtain ⟨fired, kept, once⟩ := passes.switch_fired before
    simp only [true_and, Bool.false_eq_true, false_or] at sprite once
    rw [window] at sprite kept
    refine ⟨fun now => ?_, fun still => sprite.trans (if_neg still), fired, kept, once⟩
    have done := sprite.trans (if_pos now)
    cases action <;> exact done

/-- Two seconds of four units of hue, seen after one second and after three, while somebody else
speeds up the sprite; and a switch that closes it after two seconds. -/
theorem effect_telescopes_speeding :
    let e : Effect Exact := .modify .hue .add (real 4) 0
    let sped : Sprite Exact := { Sprite.initial with speed := real 5, hue := real 2 }
    let runs : List (Window Exact × Stage Exact) :=
      [(⟨real 0, real 1⟩, ⟨.initial, .ofSeed 1, #[]⟩), (⟨real 1, real 3⟩, ⟨sped, .ofSeed 1, #[]⟩)]
    e.Acts {.property .hue} ∧ Partition 0 3 (runs.map Prod.fst) ∧ ∃ first second,
      (Behavior.leaf ⟨.linear, real 2, none⟩ e).across runs = .ok [first, second] ∧
      first.leftover < 0 ∧ second.leftover = real 1 ∧ second.stage.sprite.hue = real 4 ∧
      ∃ open' shut, (Behavior.leaf ⟨.linear, real 2, none⟩ (.switch .close false)).across runs =
          .ok [open', shut] ∧
        open'.stage.sprite = .initial ∧ shut.stage.sprite = { sped with closed := true } := by
  intro e sped runs
  have acts : e.Acts {.property .hue} := ⟨rfl, 4, rfl⟩
  have cover : Partition 0 3 (runs.map Prod.fst) :=
    ⟨1, by norm_num, rfl, 3, by norm_num, rfl, rfl⟩
  obtain ⟨replies, hr, length, each⟩ := effect_telescopes acts .linear (n := 2) cover
  obtain ⟨first, second, rfl⟩ := List.length_eq_two.1 length
  obtain ⟨twin, goes, -, brings, -⟩ := each [] _ _ rfl
  obtain ⟨-, -, comes, brings', -⟩ := each [_] _ [] rfl
  have still : (Sprite.initial : Sprite Exact).rotation.IsReal :=
    ⟨0, 0, 0, 1, by simp [Sprite.initial, Quaternion.identity]⟩
  have half : Easing.linear.progress (real 1) (real 2) = real (1 / 2) := by
    rw [Easing.progress, Easing.ratio_real, Easing.curve_real]
    norm_num [Easing.realRatio, Easing.realCurve]
  have halfway : first.stage.sprite.hue = real 2 := by
    have hue : first.stage.sprite.hue =
        real 0 + real 4 * Easing.linear.progress (real 1) (real 2) :=
      Exact.zero_eq_real ▸ brings (List.isChain_singleton _) _ still rfl
    rw [hue, half]
    norm_num
  have kept : Twin {.property .hue} first.stage.sprite sped :=
    ⟨twin.1.symm, fun c hc => by rw [Set.mem_singleton_iff.1 hc]; exact halfway⟩
  obtain ⟨one, left⟩ := comes (Exact.real_le_real.2 (by norm_num))
  have one : Easing.linear.progress (real 3) (real 2) = 1 := one
  have shuts : (Effect.switch .close false : Effect Exact).Acts {.closed} := rfl
  obtain ⟨replies, hs, length, each⟩ := effect_telescopes shuts .linear (n := 2) cover
  obtain ⟨open', shut, rfl⟩ := List.length_eq_two.1 length
  obtain ⟨-, -, -, -, throws⟩ := each [] _ _ rfl
  obtain ⟨-, -, -, -, throws'⟩ := each [_] _ [] rfl
  have notYet : ¬(1 : Exact) ≤ Easing.linear.progress (real 1) (real 2) := by
    rw [half, Exact.one_eq_real, Exact.real_le_real]
    norm_num
  have whole : (1 : Exact) ≤ Easing.linear.progress (real 3) (real 2) := by
    rw [one, Exact.one_eq_real, Exact.real_le_real]
  have opened := (throws .close rfl).2.1 fun now => notYet now.2
  have closed := (throws' .close rfl).1 ⟨List.forall_mem_singleton.2 notYet, whole⟩
  refine ⟨acts, cover, first, second, hr, goes (Exact.real_lt_real.2 (by norm_num)), ?_, ?_,
    open', shut, hs, opened, closed⟩
  · rw [left]
    norm_num
  · have hue : second.stage.sprite.hue =
        real 0 + real 4 * Easing.linear.progress (real 3) (real 2) :=
      Exact.zero_eq_real ▸
        brings' (List.isChain_cons_cons.2 ⟨kept, List.isChain_singleton _⟩) _ still rfl
    rw [hue, one, Exact.one_eq_real]
    norm_num

end ParticlePatterns
