import ParticlePatterns.Pattern.Variation
import ParticlePatterns.Proofs.Behavior.Protocol
import ParticlePatterns.Proofs.Number.Sign

/-!
# What generators yield

A generator yields good values if no value it makes is any other, and no fault it ends in is
one that was not allowed for. Generators that are made of others yield what these do, and a
choice does so as long as there is something to choose from.
-/

set_option autoImplicit false

namespace ParticlePatterns

section Traversal

variable {ε T U : Type} {f : T → Except ε U}

theorem forall₂_of_mapM {xs : List T} : ∀ {ys : List U}, xs.mapM f = .ok ys →
    List.Forall₂ (fun x y => f x = .ok y) xs ys := by
  induction xs with
  | nil =>
    intro ys h
    cases h
    exact .nil
  | cons x xs ih =>
    intro ys h
    rw [List.mapM_cons] at h
    obtain ⟨y, hy, h⟩ := bind_eq_ok.1 h
    obtain ⟨rest, hrest, h⟩ := bind_eq_ok.1 h
    cases h
    exact .cons hy (ih hrest)

theorem forall_of_mapM {xs : List T} {ys : List U} {good : U → Prop} (h : xs.mapM f = .ok ys)
    (hx : ∀ x ∈ xs, ∀ y, f x = .ok y → good y) : ∀ y ∈ ys, good y := by
  have pairs := forall₂_of_mapM h
  clear h
  induction pairs with
  | nil => simp
  | cons hy _ ih =>
    obtain ⟨first, later⟩ := List.forall_mem_cons.1 hx
    exact List.forall_mem_cons.2 ⟨first _ hy, ih later⟩

theorem ne_nil_of_mapM {xs : List T} {ys : List U} (h : xs.mapM f = .ok ys) (hx : xs ≠ []) :
    ys ≠ [] := by
  have length := (forall₂_of_mapM h).length_eq
  rintro rfl
  exact hx (List.length_eq_zero_iff.1 length)

end Traversal

variable {α T U : Type}

namespace Gen

theorem map_apply (g : Gen α T) (f : T → U) (s : Sibling) (r : Rng) :
    g.map f s r = (g s r).map fun made => (f made.1, made.2) := by
  simp only [map, bind]
  cases g s r <;> rfl

theorem map_self (g : Gen α T) : (g.map fun v => v) = g := by
  funext s r
  rw [map_apply]
  cases g s r <;> rfl

theorem map_map {V : Type} (g : Gen α T) (f : T → U) (f' : U → V) :
    (g.map f).map f' = g.map (f' ∘ f) := by
  funext s r
  simp only [map_apply]
  cases g s r <;> rfl

theorem all_singleton (g : Gen α T) : all [g] = g.map ([·]) := rfl

theorem mapFault_eq_map {g : Gen α T} {f : T → Except (Fault α) U} {f' : T → U}
    (h : ∀ v, g.Gives v → f v = .ok (f' v)) : g.mapFault f = g.map f' := by
  funext s r
  rw [map_apply]
  simp only [mapFault, bind]
  cases made : g s r with
  | error fault => rfl
  | ok result =>
    show (f result.1).map (·, result.2) = .ok (f' result.1, result.2)
    rw [h result.1 ⟨s, r, result.2, made⟩]
    rfl

def Fails (g : Gen α T) (fault : Fault α) : Prop :=
  ∃ sibling r, g sibling r = .error fault

structure Yields (good : T → Prop) (flaw : Fault α → Prop) (g : Gen α T) : Prop where
  value : ∀ v, g.Gives v → good v
  fault : ∀ f, g.Fails f → flaw f

variable {good good' : T → Prop} {flaw flaw' : Fault α → Prop} {g : Gen α T}

theorem Total.yields (h : g.Total) : g.Yields (fun _ => True) flaw := by
  refine ⟨fun _ _ => trivial, ?_⟩
  rintro fault ⟨s, r, failed⟩
  obtain ⟨v, after, made⟩ := h s r
  rw [made] at failed
  cases failed

theorem Yields.total (h : g.Yields good fun _ => False) : g.Total := by
  intro s r
  cases made : g s r with
  | ok result => exact ⟨result.1, result.2, rfl⟩
  | error fault => exact (h.fault fault ⟨s, r, made⟩).elim

theorem yields_forSibling {f : Sibling → T} (h : ∀ s, good (f s)) :
    Yields good flaw (fun s r => .ok (f s, r) : Gen α T) := by
  refine ⟨?_, ?_⟩
  · rintro v ⟨s, _, _, made⟩
    cases made
    exact h s
  · rintro fault ⟨_, _, failed⟩
    cases failed

theorem yields_constant {v : T} (h : good v) : (constant v : Gen α T).Yields good flaw :=
  yields_forSibling fun _ => h

theorem Yields.bind {next : T → Gen α U} {result : U → Prop} (h : g.Yields good flaw)
    (hn : ∀ v, good v → (next v).Yields result flaw) : (g.bind next).Yields result flaw := by
  refine ⟨?_, ?_⟩
  · rintro u ⟨s, r, after, made⟩
    rw [Gen.bind] at made
    cases first : g s r with
    | error fault => simp [first] at made
    | ok v =>
      rw [first] at made
      exact (hn v.1 (h.value v.1 ⟨s, r, v.2, first⟩)).value u ⟨s, v.2, after, made⟩
  · rintro fault ⟨s, r, failed⟩
    rw [Gen.bind] at failed
    cases first : g s r with
    | error early =>
      rw [first] at failed
      cases failed
      exact h.fault fault ⟨s, r, first⟩
    | ok v =>
      rw [first] at failed
      exact (hn v.1 (h.value v.1 ⟨s, r, v.2, first⟩)).fault fault ⟨s, v.2, failed⟩

theorem Yields.map {f : T → U} {result : U → Prop} (h : g.Yields good flaw)
    (hf : ∀ v, good v → result (f v)) : (g.map f).Yields result flaw :=
  h.bind fun v hv => yields_constant (hf v hv)

/-- A value may be refused, as long as that is allowed for. -/
theorem Yields.mapFault {f : T → Except (Fault α) U} {result : U → Prop} (h : g.Yields good flaw)
    (value : ∀ v u, good v → f v = .ok u → result u)
    (fault : ∀ v e, good v → f v = .error e → flaw e) : (g.mapFault f).Yields result flaw := by
  refine h.bind fun v hv => ⟨?_, ?_⟩
  · rintro u ⟨s, r, after, made⟩
    obtain ⟨w, hw, pair⟩ := map_eq_ok.1 made
    cases pair
    exact value v u hv hw
  · rintro e ⟨s, r, failed⟩
    cases hw : f v with
    | ok u => simp [hw, Except.map] at failed
    | error other =>
      simp only [hw, Except.map, Except.error.injEq] at failed
      exact failed ▸ fault v other hv hw

theorem yields_all {gens : List (Gen α T)} (h : ∀ g ∈ gens, g.Yields good flaw) :
    (all gens).Yields (fun vs => ∀ v ∈ vs, good v) flaw := by
  induction gens with
  | nil => exact yields_constant (by simp)
  | cons g rest ih =>
    obtain ⟨first, later⟩ := List.forall_mem_cons.1 h
    exact first.bind fun v hv => (ih later).map fun vs hvs => List.forall_mem_cons.2 ⟨hv, hvs⟩

/-- The index is one of the alternatives', if there are any. -/
theorem exists_select {gens : List (Gen α T)} (hn : gens ≠ []) (mode : Mode) (s : Sibling)
    (r : Rng) : ∃ g ∈ gens, ∃ after, select mode gens s r = g s after := by
  have stocked : 0 < gens.length := List.length_pos_of_ne_nil hn
  cases mode with
  | each =>
    have within := Nat.mod_lt s.index stocked
    refine ⟨_, List.getElem_mem within, r, ?_⟩
    simp [select, List.getElem?_eq_getElem within]
  | random =>
    obtain ⟨i, hi⟩ : ∃ i, (r.index gens.length).1 = some i := by
      simp [Rng.index, stocked.ne']
    have within := Rng.index_lt hi
    refine ⟨_, List.getElem_mem within, (r.index gens.length).2, ?_⟩
    simp [select, hi, List.getElem?_eq_getElem within]

theorem yields_select {gens : List (Gen α T)} {mode : Mode} (hn : gens ≠ [])
    (h : ∀ g ∈ gens, g.Yields good flaw) : (select mode gens).Yields good flaw := by
  refine ⟨?_, ?_⟩
  · rintro v ⟨s, r, after, made⟩
    obtain ⟨g, hg, drawn, same⟩ := exists_select hn mode s r
    exact (h g hg).value v ⟨s, drawn, after, same ▸ made⟩
  · rintro fault ⟨s, r, failed⟩
    obtain ⟨g, hg, drawn, same⟩ := exists_select hn mode s r
    exact (h g hg).fault fault ⟨s, drawn, same ▸ failed⟩

section Numbers

variable [Scalar α]

theorem Total.range {low high : Gen α α} {mode : Mode} (hl : low.Total) (hh : high.Total) :
    (range mode low high).Total := by
  have drawn : Yields (fun _ => True) (fun _ => False) (Gen.range mode low high) :=
    hl.yields.bind fun a _ => hh.yields.bind fun b _ =>
      Total.yields fun s r => by cases mode <;> exact ⟨_, _, rfl⟩
  exact drawn.total

theorem total_angle {mode : Mode} : (angle mode : Gen α α).Total :=
  fun s r => by cases mode <;> exact ⟨_, _, rfl⟩

/-! Positions in a batch may be numbered in any way, also in a batch of none. -/

def divided? (x : α) (n : Nat) : Option α :=
  if n = 0 then none else some (x / Scalar.ofNat n)

def before? (n : Nat) : Option Nat :=
  if n = 0 then none else some (n - 1)

def share? (s : Sibling) : Option α :=
  if s.total ≤ 1 then some (1 / 2)
  else (before? s.total).bind (divided? (Scalar.ofNat s.index))

def bearing? (s : Sibling) : Option α :=
  if s.total = 0 then some 0
  else (divided? (360 * Scalar.ofNat s.index) s.total).map fun degrees =>
    if s.total = 2 then degrees + 90 else degrees

theorem share?_eq (s : Sibling) : share? (α := α) s = some (share s) := by
  unfold share? share
  by_cases alone : s.total ≤ 1
  · rw [if_pos alone, if_pos alone]
  · have others : s.total ≠ 0 := by omega
    have last : s.total - 1 ≠ 0 := by omega
    simp [alone, before?, divided?, others, last]

theorem bearing?_eq (s : Sibling) : bearing? (α := α) s = some (bearing s) := by
  unfold bearing? bearing
  by_cases empty : s.total = 0
  · rw [if_pos empty, if_pos empty]
  · simp [empty, divided?]

end Numbers

end Gen

section Fresh

def Timing.Pristine [Scalar α] (t : Timing α) : Prop :=
  t.lastStop = none ∧ 0 ≤ t.lifespan

def Effect.Unfired [Scalar α] : Effect α → Prop
  | .modify _ _ _ initial => initial = 0
  | .switch _ fired => fired = false
  | _ => True

variable [Scalar α] {flaw : Fault α → Prop}

/-- No window has come to any part of the behavior, and what its bodies make is of this kind
again, but for faults that are allowed for. -/
inductive Behavior.Pristine (flaw : Fault α → Prop) : Behavior α → Prop
  | leaf {timing : Timing α} {effect : Effect α} : timing.Pristine → effect.Unfired →
      Pristine flaw (.leaf timing effect)
  | emit {timing : Timing α} {batch : Batch} {body : Gen α (Behavior α)} : timing.Pristine →
      batch.fault? (α := α) = none → (∀ b, body.Gives b → Pristine flaw b) →
      (∀ f, body.Fails f → flaw f) →
      Pristine flaw (.emit timing batch body)
  | body {timing : Timing α} {body : Gen α (Behavior α)} {sibling : Sibling}
      {remaining : Option Nat} : timing.Pristine → (∀ b, body.Gives b → Pristine flaw b) →
      (∀ f, body.Fails f → flaw f) →
      Pristine flaw (.chain timing (.body body sibling remaining) none 0 true)
  | sequence {timing : Timing α} {bs : List (Behavior α)} : timing.Pristine →
      (∀ b ∈ bs, Pristine flaw b) → Pristine flaw (.chain timing (.list bs) none 0 true)
  | together {timing : Timing α} {branches : List (Behavior α × Option α)} : timing.Pristine →
      (∀ p ∈ branches, p.2 = none) → (∀ p ∈ branches, Pristine flaw p.1) →
      Pristine flaw (.parallel timing branches)

namespace Behavior

variable {b c : Behavior α} {body : Gen α (Behavior α)}

theorem Pristine.timing (h : b.Pristine flaw) : b.timing.Pristine := by
  cases h <;> assumption

theorem Pristine.withTiming {t : Timing α} (h : b.Pristine flaw) (ht : t.Pristine) :
    (b.withTiming t).Pristine flaw := by
  cases h with
  | leaf _ effect => exact .leaf ht effect
  | emit _ room made failed => exact .emit ht room made failed
  | body _ made failed => exact .body ht made failed
  | sequence _ parts => exact .sequence ht parts
  | together _ waiting parts => exact .together ht waiting parts

omit [Scalar α] in
theorem setEasing_eq (fresh : b.timing.lastStop = none) (easing : Easing) :
    b.setEasing easing = .ok (b.withTiming { b.timing with easing }) := by
  simp [setEasing, Timing.setEasing, Timing.isRunning, fresh, Except.map]

theorem setLifespan_eq (fresh : b.timing.lastStop = none) {lifespan : α} (h : 0 ≤ lifespan) :
    b.setLifespan lifespan = .ok (b.withTiming { b.timing with lifespan }) := by
  simp [setLifespan, Timing.setLifespan, Timing.isRunning, fresh, h, Except.map]

/-- The easing of what has had no window can be set. -/
theorem Pristine.setEasing (h : b.Pristine flaw) (easing : Easing) :
    ∃ c, b.setEasing easing = .ok c ∧ c.Pristine flaw := by
  obtain ⟨fresh, lifespan⟩ := h.timing
  exact ⟨_, setEasing_eq fresh easing, h.withTiming ⟨fresh, lifespan⟩⟩

theorem Pristine.setLifespan (h : b.Pristine flaw) {x : α} (hx : 0 ≤ x) :
    ∃ c, b.setLifespan x = .ok c ∧ c.Pristine flaw := by
  obtain ⟨fresh, _⟩ := h.timing
  exact ⟨_, setLifespan_eq fresh hx, h.withTiming ⟨fresh, hx⟩⟩

omit [Scalar α] in
theorem withTiming_withTiming (b : Behavior α) (t u : Timing α) :
    (b.withTiming t).withTiming u = b.withTiming u := by
  cases b <;> rfl

theorem built_withTiming {t : Timing α} (h : Built b) (ht : t.Pristine) :
    Built (b.withTiming t) := by
  obtain ⟨easing, lifespan, lastStop⟩ := t
  obtain ⟨rfl, hl⟩ := ht
  have eased := h.easing (setEasing_eq h.not_running easing)
  have lasting := eased.lifespan (setLifespan_eq eased.not_running hl)
  have fresh := h.not_running
  simp only [withTiming_withTiming, timing_withTiming, fresh] at lasting
  exact lasting

/-- Where no fault is allowed for, this is how behaviors are put together. -/
theorem Pristine.built (h : b.Pristine fun _ => False) : Built b := by
  have sure : ∀ body : Gen α (Behavior α), (∀ f, body.Fails f → False) → body.Total := by
    intro body never
    have drawn : body.Yields (fun _ => True) fun _ => False := ⟨fun _ _ => trivial, never⟩
    exact drawn.total
  induction h with
  | leaf ht unfired =>
    rename_i effect
    cases effect with
    | pause => exact built_withTiming .pause ht
    | modify property how operand initial =>
      obtain rfl : initial = 0 := unfired
      exact built_withTiming .modify ht
    | switch action fired =>
      obtain rfl : fired = false := unfired
      exact built_withTiming .switch ht
    | translate => exact built_withTiming .translate ht
    | rotate => exact built_withTiming .rotate ht
  | @emit timing batch body ht room _ never ih =>
    have made : emission batch body = .ok (.emit .instant batch body) := by
      rw [emission, room]
    exact built_withTiming (.emission (sure _ never) ih made) ht
  | @body timing body sibling remaining ht _ never ih =>
    cases remaining with
    | none => exact built_withTiming (.loop (sure _ never) ih) ht
    | some limit =>
      have repeated : Built (.repetition body sibling limit) := .repetition (sure _ never) ih
      exact built_withTiming repeated ht
  | sequence ht _ ih => exact built_withTiming (.sequence ih) ht
  | @together timing branches ht waiting _ ih =>
    have whole : (branches.map Prod.fst).map (·, none) = branches := by
      have each : ∀ p ∈ branches, (p.1, none) = p := fun p hp =>
        Prod.ext rfl (waiting p hp).symm
      rw [List.map_map]
      exact (List.map_congr_left each).trans (List.map_id _)
    have parts : ∀ b ∈ branches.map Prod.fst, Built b := by simpa using ih
    have set := built_withTiming (.together parts) ht
    rwa [Behavior.together, whole] at set

theorem fault?_of_emission {batch : Batch} {fault : Fault α}
    (h : emission batch body = .error fault) : batch.fault? = some fault := by
  unfold emission at h
  split at h
  · cases h
    assumption
  · cases h

variable [Scalar.Signed α]

theorem pristine_instant : (Timing.instant : Timing α).Pristine :=
  ⟨rfl, Scalar.Signed.zero_le_zero⟩

theorem pristine_unbounded : (Timing.unbounded : Timing α).Pristine :=
  ⟨rfl, Scalar.Signed.zero_le_infinity⟩

theorem pristine_ofEffect {e : Effect α} (h : e.Unfired) : (ofEffect e).Pristine flaw :=
  .leaf pristine_instant h

theorem pristine_emission {batch : Batch} (hb : body.Yields (Pristine flaw) flaw)
    (h : emission batch body = .ok b) : b.Pristine flaw := by
  unfold emission at h
  split at h
  · cases h
  next room =>
    cases h
    exact .emit pristine_instant room hb.value hb.fault

theorem pristine_loop (hb : body.Yields (Pristine flaw) flaw) (s : Sibling) :
    (loop body s).Pristine flaw :=
  .body pristine_unbounded hb.value hb.fault

theorem pristine_repetition (hb : body.Yields (Pristine flaw) flaw) (s : Sibling) (limit : Nat) :
    (repetition body s limit).Pristine flaw :=
  .body pristine_unbounded hb.value hb.fault

theorem pristine_sequence {bs : List (Behavior α)} (h : ∀ b ∈ bs, b.Pristine flaw) :
    (sequence bs).Pristine flaw :=
  .sequence pristine_unbounded h

theorem pristine_together {bs : List (Behavior α)} (h : ∀ b ∈ bs, b.Pristine flaw) :
    (together bs).Pristine flaw :=
  .together pristine_unbounded (by simp) (by simpa using h)

end Behavior

end Fresh

end ParticlePatterns
