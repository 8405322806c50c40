import Mathlib
import ParticlePatterns.Proofs.Pattern.Instantiation

/-!
# Prefixes

Numbers and easings in front of a behavior set its lifespan and its easing. Each is wrapped
around what all the terms behind it make, so the one that stands in front has the last word.
The first number and the first easing decide, and the others might as well not be there.
-/

set_option autoImplicit false

namespace ParticlePatterns

variable {α : Type} [Scalar α]

inductive Setting (α : Type)
  | lasting (x : α)
  | eased (easing : Easing)

namespace Setting

def term : Setting α → Term α
  | lasting x => .number x
  | eased easing => .symbol easing.name

def number? : Setting α → Option α
  | lasting x => some x
  | eased _ => none

def easing? : Setting α → Option Easing
  | lasting _ => none
  | eased easing => some easing

def apply : Setting α → Timing α → Timing α
  | lasting x, t => { t with lifespan := Scalar.max x 0 }
  | eased easing, t => { t with easing }

def wrap : Setting α → Gen α (Behavior α) → Gen α (Behavior α)
  | lasting x, body => Meaning.lasting (.constant x) body
  | eased easing, body => Meaning.eased easing body

end Setting

/-- With the lifespan that the first number sets, and the easing that the first easing sets.
No lifespan is below zero. -/
def Timing.under (settings : List (Setting α)) (t : Timing α) : Timing α :=
  { t with
    lifespan := ((settings.findSome? Setting.number?).map (Scalar.max · 0)).getD t.lifespan
    easing := (settings.findSome? Setting.easing?).getD t.easing }

@[simp] theorem Timing.under_nil (t : Timing α) : t.under [] = t := rfl

theorem Timing.under_cons (m : Setting α) (settings : List (Setting α)) (t : Timing α) :
    t.under (m :: settings) = m.apply (t.under settings) := by
  cases m <;> rfl

def Term.standalone : List (Term α) → Term α
  | [t] => t
  | ts => .list ts

omit [Scalar α] in
theorem Term.standalone_cons (t : Term α) {ts : List (Term α)} (h : ts ≠ []) :
    standalone (t :: ts) = .list (t :: ts) := by
  obtain ⟨u, us, rfl⟩ := List.exists_cons_of_ne_nil h
  rfl

/-- The first of some arguments knows what they all make together. -/
theorem Term.exists_arguments_onward {ts : List (Term α)} (h : ts ≠ []) :
    ∃ a rest, arguments ts = a :: rest ∧ a.onward.get = (standalone ts).behavior := by
  obtain ⟨t, us, rfl⟩ := List.exists_cons_of_ne_nil h
  refine ⟨_, _, rfl, ?_⟩
  show asBehavior t.meaning (arguments us) = _
  cases us with
  | nil =>
    rw [standalone, behavior, arguments, asBehavior]
    cases t.meaning <;> rfl
  | cons u us =>
    rw [standalone_cons t (by simp), behavior, meaning, arguments, asBehavior]
    cases t.meaning <;> rfl

theorem Easing.meaning_name (easing : Easing) :
    (Term.symbol easing.name : Term α).meaning = .ok (.easing easing) := by
  cases easing <;> rfl

theorem Setting.meaning_list (m : Setting α) {ts : List (Term α)} (h : ts ≠ []) :
    (Term.list (m.term :: ts)).meaning =
      (Term.standalone ts).behavior.map fun body => .behavior (m.wrap body) := by
  obtain ⟨a, rest, ha, onward⟩ := Term.exists_arguments_onward h
  rw [Term.meaning, ha, ← onward]
  cases m with
  | lasting x =>
    rw [term, Term.meaning]
    rfl
  | eased easing =>
    rw [term, easing.meaning_name]
    rfl

theorem Setting.behavior_list (m : Setting α) {ts : List (Term α)} (h : ts ≠ []) :
    (Term.list (m.term :: ts)).behavior = (Term.standalone ts).behavior.map m.wrap := by
  rw [Term.behavior, m.meaning_list h]
  cases (Term.standalone ts).behavior <;> rfl

section Prefix

variable [Scalar.Signed α] {args : List (Term α)}

/-- On what no window has come to, a setting has its way. -/
theorem Setting.wrap_eq (m : Setting α) {flaw : Fault α → Prop} {gen : Gen α (Behavior α)}
    (h : gen.Yields (Behavior.Pristine flaw) flaw) :
    m.wrap gen = gen.map fun b => b.withTiming (m.apply b.timing) := by
  cases m with
  | lasting x =>
    exact Gen.mapFault_eq_map fun b given =>
      Behavior.setLifespan_eq (h.value b given).timing.1 (Scalar.zero_le_max_zero x)
  | eased easing =>
    exact Gen.mapFault_eq_map fun b given =>
      Behavior.setEasing_eq (h.value b given).timing.1 easing

/-- All settings together, by induction on how many there are in front. -/
theorem Term.behavior_settings (ha : args ≠ []) : ∀ settings : List (Setting α),
    (standalone (settings.map Setting.term ++ args)).behavior =
      (standalone args).behavior.map fun gen =>
        gen.map fun b => b.withTiming (b.timing.under settings)
  | [] => by
    simp only [Timing.under_nil, Behavior.withTiming_timing, Gen.map_self, List.map_nil,
      List.nil_append]
    cases (standalone args).behavior <;> rfl
  | m :: settings => by
    have ih := behavior_settings ha settings
    have behind : settings.map Setting.term ++ args ≠ [] := by simp [ha]
    rw [List.map_cons, List.cons_append, standalone_cons _ behind, m.behavior_list behind]
    cases made : (standalone args).behavior with
    | error e => rw [ih, made]; rfl
    | ok gen =>
      rw [made] at ih
      have yields : Gen.Yields (Behavior.Pristine fun _ => True) (fun _ => True) _ :=
        behavior_yields (fun _ _ => trivial) ih
      rw [ih]
      refine congrArg Except.ok ((m.wrap_eq yields).trans ?_)
      rw [Gen.map_map]
      simp only [Function.comp_def, Behavior.timing_withTiming, Behavior.withTiming_withTiming,
        Timing.under_cons]

/-- Numbers and easings in front of other terms compile as a behavior if and only if these do
alone, and then make what these make, from the same draws, with two changes at most: the first
number sets the lifespan and the first easing sets the easing. So settings that agree in the
first of each kind are the same, in whatever order they stand. -/
theorem prefixes_normalise {settings : List (Setting α)} (hs : settings ≠ []) (ha : args ≠ []) :
    let headed (front : List (Setting α)) : Term α := .list (front.map Setting.term ++ args)
    let bare : Term α := .standalone args
    ((∃ gen, (headed settings).behavior = .ok gen) ↔ ∃ gen, bare.behavior = .ok gen) ∧
    (∀ gen, bare.behavior = .ok gen → ∃ set, (headed settings).behavior = .ok set ∧
      ∀ s r, set s r = (gen s r).map fun made =>
        (made.1.withTiming (made.1.timing.under settings), made.2)) ∧
    ∀ others, others ≠ [] →
      others.findSome? Setting.number? = settings.findSome? Setting.number? →
      others.findSome? Setting.easing? = settings.findSome? Setting.easing? →
      (headed others).behavior = (headed settings).behavior := by
  intro headed bare
  have normal : ∀ front, front ≠ [] → (headed front).behavior = bare.behavior.map fun gen =>
      gen.map fun b => b.withTiming (b.timing.under front) := by
    intro front hf
    obtain ⟨m, rest, rfl⟩ := List.exists_cons_of_ne_nil hf
    rw [← Term.behavior_settings ha, List.map_cons, List.cons_append,
      Term.standalone_cons _ (by simp [ha])]
    rfl
  refine ⟨?_, fun gen compiled => ?_, fun others ho number easing => ?_⟩
  · rw [normal settings hs]
    cases bare.behavior <;> simp [Except.map]
  · rw [normal settings hs, compiled]
    exact ⟨_, rfl, fun s r => gen.map_apply _ s r⟩
  · rw [normal others ho, normal settings hs]
    simp only [Timing.under, number, easing]

end Prefix

open Exact (real)

/-- The second number does not count, and the easing may stand before the first or behind. -/
theorem prefixes_normalise_loop :
    let settings : List (Setting Exact) := [.lasting (real 2), .eased .easeIn, .lasting (real 3)]
    let others : List (Setting Exact) := [.eased .easeIn, .lasting (real 2)]
    let args : List (Term Exact) := [.symbol "loop", .symbol "nop"]
    let headed (front : List (Setting Exact)) : Term Exact :=
      .list (front.map Setting.term ++ args)
    settings ≠ [] ∧ args ≠ [] ∧ others ≠ [] ∧
      (headed others).behavior = (headed settings).behavior ∧
      ∃ gen set, (Term.standalone args).behavior = .ok gen ∧
        (headed settings).behavior = .ok set ∧ ∀ s r, set s r = (gen s r).map fun made =>
          (made.1.withTiming { made.1.timing with lifespan := real 2, easing := .easeIn },
            made.2) := by
  intro settings others args headed
  have hs : settings ≠ [] := by simp [settings]
  have ho : others ≠ [] := by simp [others]
  have ha : args ≠ [] := by simp [args]
  obtain ⟨-, makes, agree⟩ := prefixes_normalise hs ha
  obtain ⟨gen, compiled⟩ : ∃ gen, (Term.standalone args).behavior = .ok gen := ⟨_, rfl⟩
  obtain ⟨set, front, made⟩ := makes gen compiled
  have clamped : Scalar.max (real 2) 0 = real 2 := by
    rw [Exact.zero_eq_real, Exact.max_real, max_eq_left zero_le_two]
  have under : ∀ t : Timing Exact,
      t.under settings = { t with lifespan := real 2, easing := .easeIn } := by
    intro t
    rw [← clamped]
    rfl
  refine ⟨hs, ha, ho, agree others ho rfl rfl, gen, set, compiled, front, fun s r => ?_⟩
  rw [made]
  simp only [under]

end ParticlePatterns
