import ParticlePatterns.Proofs.Number.Exact
import ParticlePatterns.Behavior.Effect

/-!
# Components of a sprite

Most effects read and write a single component of a sprite. What such an effect does
depends on nothing else but the rotation, which it does not change.
-/

set_option autoImplicit false

namespace ParticlePatterns

open Exact (real)

inductive Component
  | position
  | property (p : Property)
  | closed
  | model

def Component.Same {α : Type} (c : Component) (s t : Sprite α) : Prop :=
  match c with
  | position => s.position = t.position
  | property p => s.get p = t.get p
  | closed => s.closed = t.closed
  | model => s.model = t.model

def Twin {α : Type} (A : Set Component) (s t : Sprite α) : Prop :=
  s.rotation = t.rotation ∧ ∀ c ∈ A, c.Same s t

namespace Twin

variable {α : Type} {A B : Set Component} {s t u : Sprite α}

theorem refl (A : Set Component) (s : Sprite α) : Twin A s s :=
  ⟨rfl, fun c _ => by cases c <;> rfl⟩

theorem symm (h : Twin A s t) : Twin A t s :=
  ⟨h.1.symm, fun c hc => by cases c <;> exact (h.2 _ hc).symm⟩

theorem trans (h : Twin A s t) (h' : Twin A t u) : Twin A s u :=
  ⟨h.1.trans h'.1, fun c hc => by cases c <;> exact (h.2 _ hc).trans (h'.2 _ hc)⟩

theorem mono (h : Twin B s t) (hs : A ⊆ B) : Twin A s t :=
  ⟨h.1, fun c hc => h.2 c (hs hc)⟩

theorem of_diff (h : Twin B s t) (h' : Twin (A \ B) s t) : Twin A s t := by
  refine ⟨h.1, fun c hc => ?_⟩
  by_cases hb : c ∈ B
  · exact h.2 c hb
  · exact h'.2 c ⟨hc, hb⟩

/-- What is alike stays alike where neither side changes. -/
theorem carry {s' t' : Sprite α} (h : Twin A s t) (hs : Twin Bᶜ s s') (ht : Twin Bᶜ t t') :
    Twin (A \ B) s' t' := by
  have same := h.mono (Set.sdiff_subset : A \ B ⊆ A)
  have out : A \ B ⊆ Bᶜ := fun c hc => hc.2
  exact ((hs.mono out).symm.trans same).trans (ht.mono out)

theorem eq (h : Twin Set.univ s t) : s = t := by
  have position : s.position = t.position := h.2 .position trivial
  have speed : s.speed = t.speed := h.2 (.property .speed) trivial
  have opacity : s.opacity = t.opacity := h.2 (.property .opacity) trivial
  have hue : s.hue = t.hue := h.2 (.property .hue) trivial
  have closed : s.closed = t.closed := h.2 .closed trivial
  have model : s.model = t.model := h.2 .model trivial
  have rotation := h.1
  cases s
  cases t
  simp only at position speed opacity hue closed model rotation
  rw [position, speed, opacity, hue, closed, model, rotation]

end Twin

namespace Sprite

variable {α : Type} {s t : Sprite α} {A : Set Component}

@[simp] theorem get_set (s : Sprite α) (p : Property) (x : α) : (s.set p x).get p = x := by
  cases p <;> rfl

@[simp] theorem set_set (s : Sprite α) (p : Property) (x y : α) :
    (s.set p x).set p y = s.set p y := by
  cases p <;> rfl

@[simp] theorem rotation_set (s : Sprite α) (p : Property) (x : α) :
    (s.set p x).rotation = s.rotation := by
  cases p <;> rfl

theorem twin_set (s : Sprite α) (p : Property) (x : α) (hp : .property p ∈ A) :
    Twin Aᶜ s (s.set p x) := by
  refine ⟨(rotation_set s p x).symm, fun c hc => ?_⟩
  cases c with
  | property q =>
    have other : p ≠ q := fun e => hc (e ▸ hp)
    cases p <;> cases q <;> first | rfl | exact absurd rfl other
  | position => cases p <;> rfl
  | closed => cases p <;> rfl
  | model => cases p <;> rfl

theorem twin_set_set (h : Twin A s t) (p : Property) (x : α) :
    Twin A (s.set p x) (t.set p x) := by
  refine ⟨by simp [h.1], fun c hc => ?_⟩
  have same := h.2 c hc
  cases c with
  | property q => cases p <;> cases q <;> first | rfl | exact same
  | position => cases p <;> exact same
  | closed => cases p <;> exact same
  | model => cases p <;> exact same

theorem twin_translate [Scalar α] (s : Sprite α) (v : Vec3 α) (hp : .position ∈ A) :
    Twin Aᶜ s (s.translate v) := by
  refine ⟨rfl, fun c hc => ?_⟩
  cases c with
  | position => exact absurd hp hc
  | property q => cases q <;> rfl
  | closed => rfl
  | model => rfl

theorem twin_translate_translate [Scalar α] (h : Twin A s t) (v : Vec3 α) :
    Twin A (s.translate v) (t.translate v) := by
  refine ⟨h.1, fun c hc => ?_⟩
  have same := h.2 c hc
  cases c with
  | position =>
    have position : s.position = t.position := same
    simp only [Component.Same, translate, position, h.1]
  | property q => cases q <;> exact same
  | closed => exact same
  | model => exact same

end Sprite

def Action.component : Action → Component
  | become _ => .model
  | close => .closed

namespace Action

variable {α : Type} {s t : Sprite α} {A : Set Component}

theorem twin_apply (a : Action) (s : Sprite α) (ha : a.component ∈ A) :
    Twin Aᶜ s (a.apply s) := by
  refine ⟨by cases a <;> rfl, fun c hc => ?_⟩
  have other : c ≠ a.component := fun e => hc (e ▸ ha)
  cases a <;> cases c with
  | position => rfl
  | property q => cases q <;> rfl
  | closed => first | rfl | exact absurd rfl other
  | model => first | rfl | exact absurd rfl other

theorem twin_apply_apply (a : Action) (h : Twin A s t) : Twin A (a.apply s) (a.apply t) := by
  refine ⟨by cases a <;> exact h.1, fun c hc => ?_⟩
  have same := h.2 c hc
  cases a <;> cases c with
  | position => exact same
  | property q => cases q <;> exact same
  | closed => first | rfl | exact same
  | model => first | rfl | exact same

end Action

namespace Effect

def Acts (A : Set Component) : Effect Exact → Prop
  | pause => True
  | modify p .set _ _ => .property p ∈ A
  | modify p .add operand _ => .property p ∈ A ∧ ∃ x, operand = real x
  | modify _ .multiply _ _ => False
  | switch action _ => action.component ∈ A
  | translate offset => .position ∈ A ∧ ∃ x y z, offset = ⟨real x, real y, real z⟩
  | rotate _ => False

variable {A : Set Component} {e : Effect Exact}

theorem Acts.apply (h : e.Acts A) (timing : Timing Exact) (first : Bool) (w : Window Exact)
    (s : Sprite Exact) :
    (e.apply timing first w s).1.Acts A ∧ Twin Aᶜ s (e.apply timing first w s).2 := by
  match e, h with
  | pause, _ => exact ⟨trivial, .refl _ s⟩
  | modify p .set _ _, h => exact ⟨h, s.twin_set p _ h⟩
  | modify p .add _ _, h => exact ⟨h, s.twin_set p _ h.1⟩
  | switch action fired, h =>
    by_cases fires : fired = false ∧ 1 ≤ timing.progress w.stop
    · simp only [Effect.apply, if_pos fires]
      exact ⟨h, action.twin_apply s h⟩
    · simp only [Effect.apply, if_neg fires]
      exact ⟨h, .refl _ s⟩
  | translate _, h => exact ⟨h, s.twin_translate _ h.1⟩

theorem Acts.apply_twin (h : e.Acts A) (timing : Timing Exact) (first : Bool) (w : Window Exact)
    {s t : Sprite Exact} (ht : Twin A s t) :
    (e.apply timing first w s).1 = (e.apply timing first w t).1 ∧
      Twin A (e.apply timing first w s).2 (e.apply timing first w t).2 := by
  match e, h with
  | pause, _ => exact ⟨rfl, ht⟩
  | modify p .set _ _, h =>
    have same : s.get p = t.get p := ht.2 _ h
    simp only [Effect.apply, same]
    exact ⟨trivial, Sprite.twin_set_set ht p _⟩
  | modify p .add _ _, h =>
    have same : s.get p = t.get p := ht.2 _ h.1
    simp only [Effect.apply, Sprite.modify, same]
    exact ⟨trivial, Sprite.twin_set_set ht p _⟩
  | switch action fired, h =>
    by_cases fires : fired = false ∧ 1 ≤ timing.progress w.stop
    · simp only [Effect.apply, if_pos fires]
      exact ⟨trivial, action.twin_apply_apply ht⟩
    · simp only [Effect.apply, if_neg fires]
      exact ⟨trivial, ht⟩
  | translate _, h => exact ⟨rfl, Sprite.twin_translate_translate ht _⟩

end Effect

end ParticlePatterns
