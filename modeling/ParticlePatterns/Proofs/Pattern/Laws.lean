import Mathlib
import ParticlePatterns.Proofs.Behavior.Stillness

/-!
# Laws of generators

A law that is kept when generators are put together is kept by all that is made of lawful parts,
and the behaviors that come out are lawful. To draw nothing at random is such a law, and so is
to be any generator at all; the first one does not hold of what draws at random itself.
-/

set_option autoImplicit false

namespace ParticlePatterns

variable {α T U : Type}

namespace Gen

/-- Kept by what no random state matters to, and by all the ways of putting generators
together. -/
structure Lawlike (law : (T : Type) → Gen α T → Prop) : Prop where
  fixed : ∀ (T : Type) (f : Sibling → Except (Fault α) T), law T fun s r => (f s).map (·, r)
  bind : ∀ (T U : Type) (g : Gen α T) (next : T → Gen α U), law T g →
    (∀ v, g.Gives v → law U (next v)) → law U (g.bind next)
  spread : ∀ (T : Type) (gens : List (Gen α T)), (∀ g ∈ gens, law T g) →
    law T (select .each gens)

theorem lawlike_trivial : Lawlike (α := α) fun _ _ => True :=
  ⟨fun _ _ => trivial, fun _ _ _ _ _ _ => trivial, fun _ _ _ => trivial⟩

theorem lawlike_still : Lawlike (α := α) fun _ => Still where
  fixed T f s r r' := by
    simp only
    cases f s <;> rfl
  bind T U g next hg hn s r r' := by
    rw [Gen.bind, Gen.bind, hg s r r']
    cases made : g s r with
    | error fault => rfl
    | ok v => exact hn v.1 ⟨s, r, v.2, made⟩ s v.2 r'
  spread T gens h s r r' := by
    simp only [select]
    cases found : gens[s.index % gens.length]? with
    | none => rfl
    | some g => exact h g (List.mem_of_getElem? found) s r r'

theorem gives_of_bind {g : Gen α T} {next : T → Gen α U} {u : U} (h : (g.bind next).Gives u) :
    ∃ v, g.Gives v ∧ (next v).Gives u := by
  obtain ⟨s, r, after, made⟩ := h
  rw [Gen.bind] at made
  cases first : g s r with
  | error fault => simp [first] at made
  | ok v =>
    rw [first] at made
    exact ⟨v.1, ⟨s, r, v.2, first⟩, s, v.2, after, made⟩

theorem gives_of_select {mode : Mode} {gens : List (Gen α T)} {v : T}
    (h : (select mode gens).Gives v) : ∃ g ∈ gens, g.Gives v := by
  obtain ⟨s, r, after, made⟩ := h
  obtain rfl | stocked := eq_or_ne gens []
  · cases mode <;> simp [select] at made
  · obtain ⟨g, hg, drawn, same⟩ := exists_select stocked mode s r
    exact ⟨g, hg, s, drawn, after, same ▸ made⟩

variable {law : (T : Type) → Gen α T → Prop} {good : T → Prop} {result : U → Prop} {g : Gen α T}

variable (law) in
structure Makes (good : T → Prop) (g : Gen α T) : Prop where
  keeps : law T g
  gives : ∀ v, g.Gives v → good v

theorem makes_fixed (hl : Lawlike law) {f : Sibling → Except (Fault α) T}
    (h : ∀ s v, f s = .ok v → good v) : Makes law good fun s r => (f s).map (·, r) := by
  refine ⟨hl.fixed T f, ?_⟩
  rintro v ⟨s, r, after, made⟩
  obtain ⟨w, hw, pair⟩ := map_eq_ok.1 made
  cases pair
  exact h s v hw

theorem makes_constant (hl : Lawlike law) {v : T} (h : good v) : (constant v).Makes law good :=
  makes_fixed hl (f := fun _ => .ok v) fun _ _ same => Except.ok.inj same ▸ h

theorem Makes.bind (hl : Lawlike law) {next : T → Gen α U} (h : g.Makes law good)
    (hn : ∀ v, good v → (next v).Makes law result) : (g.bind next).Makes law result := by
  refine ⟨hl.bind T U g next h.keeps fun v hv => (hn v (h.gives v hv)).keeps, fun u hu => ?_⟩
  obtain ⟨v, hv, hu⟩ := gives_of_bind hu
  exact (hn v (h.gives v hv)).gives u hu

theorem Makes.map (hl : Lawlike law) {f : T → U} (h : g.Makes law good)
    (hf : ∀ v, good v → result (f v)) : (g.map f).Makes law result :=
  h.bind hl fun v hv => makes_constant hl (hf v hv)

theorem Makes.mapFault (hl : Lawlike law) {f : T → Except (Fault α) U} (h : g.Makes law good)
    (hf : ∀ v u, good v → f v = .ok u → result u) : (g.mapFault f).Makes law result :=
  h.bind hl fun v hv => makes_fixed hl fun _ u made => hf v u hv made

theorem Makes.mono {good' : T → Prop} (h : g.Makes law good) (hg : ∀ v, good v → good' v) :
    g.Makes law good' :=
  ⟨h.keeps, fun v hv => hg v (h.gives v hv)⟩

theorem makes_all (hl : Lawlike law) {gens : List (Gen α T)} (h : ∀ g ∈ gens, g.Makes law good) :
    (all gens).Makes law fun vs => ∀ v ∈ vs, good v := by
  induction gens with
  | nil => exact makes_constant hl (by simp)
  | cons g rest ih =>
    obtain ⟨first, later⟩ := List.forall_mem_cons.1 h
    exact first.bind hl fun v hv =>
      (ih later).map hl fun vs hvs => List.forall_mem_cons.2 ⟨hv, hvs⟩

/-- A draw at random keeps to the law only if every generator does. -/
theorem makes_select (hl : Lawlike law) {gens : List (Gen α T)} {mode : Mode}
    (hr : mode = .random → ∀ T g, law T g) (h : ∀ g ∈ gens, g.Makes law good) :
    (select mode gens).Makes law good := by
  refine ⟨?_, fun v hv => ?_⟩
  · cases mode with
    | each => exact hl.spread T gens fun g hg => (h g hg).keeps
    | random => exact hr rfl T _
  · obtain ⟨g, hg, hv⟩ := gives_of_select hv
    exact (h g hg).gives v hv

variable [Scalar α]

theorem range_keeps (hl : Lawlike law) {mode : Mode} {low high : Gen α α}
    (hr : mode = .random → ∀ T g, law T g) (hlow : law α low) (hhigh : law α high) :
    law α (range mode low high) := by
  cases mode with
  | each =>
    exact hl.bind α α low _ hlow fun a _ => hl.bind α α high _ hhigh fun b _ =>
      hl.fixed α fun s => .ok (Scalar.lerp a b (share s))
  | random => exact hr rfl α _

theorem angle_keeps (hl : Lawlike law) {mode : Mode} (hr : mode = .random → ∀ T g, law T g) :
    law α (angle mode) := by
  cases mode with
  | each => exact hl.fixed α fun s => .ok (bearing s)
  | random => exact hr rfl α _

end Gen

namespace Behavior

variable [Scalar α] {law : Gen α (Behavior α) → Prop} {depth : ℕ∞} {b c : Behavior α}
  {body : Gen α (Behavior α)}

theorem lawful_ofEffect {e : Effect α} : (ofEffect e).Lawful law depth :=
  .leaf

theorem lawful_emission {batch : Batch} (hb : law body)
    (made : ∀ b, body.Gives b → b.Lawful law depth) (h : emission batch body = .ok b) :
    b.Lawful law (depth + 1) := by
  unfold emission at h
  split at h
  · cases h
  · cases h
    exact .emit hb le_rfl made

/-- What is made of a supply is as lawful as what comes out of it. -/
theorem lawful_body (hb : law body) (made : ∀ b, body.Gives b → b.Lawful law depth) (s : Sibling)
    (remaining : Option Nat) : (ofSupply (.body body s remaining)).Lawful law depth := by
  refine .chain ?_ ?_ (by simp)
  · rintro _ _ _ ⟨⟩
    exact hb
  · rintro b ⟨r, after, h⟩
    exact made b ⟨s, r, after, h⟩

theorem lawful_sequence {bs : List (Behavior α)} (h : ∀ b ∈ bs, b.Lawful law depth) :
    (sequence bs).Lawful law depth :=
  .chain (by rintro _ _ _ ⟨⟩) h (by simp)

theorem lawful_together {bs : List (Behavior α)} (h : ∀ b ∈ bs, b.Lawful law depth) :
    (together bs).Lawful law depth :=
  .parallel (by simpa using h)

omit [Scalar α] in
theorem Lawful.setEasing (h : b.Lawful law depth) {easing : Easing}
    (set : b.setEasing easing = .ok c) : c.Lawful law depth := by
  obtain ⟨t, -, rfl⟩ := map_eq_ok.1 set
  exact h.withTiming t

theorem Lawful.setLifespan (h : b.Lawful law depth) {lifespan : α}
    (set : b.setLifespan lifespan = .ok c) : c.Lawful law depth := by
  obtain ⟨t, -, rfl⟩ := map_eq_ok.1 set
  exact h.withTiming t

end Behavior

end ParticlePatterns
