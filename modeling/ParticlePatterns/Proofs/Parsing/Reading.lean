import Mathlib

/-!
# Readings of texts

A reading relates a text to what may be left of it behind a part that has a value. It may
leave a choice at every turn; only a repetition has to go on as long as it can. What it says
of a text depends on its parts at that text and at shorter ones.
-/

set_option autoImplicit false

namespace ParticlePatterns.Parsing

abbrev Reading (T : Type) : Type :=
  List Char → List Char → T → Prop

inductive Greedy {T : Type} (item : Reading T) : List Char → List Char → List T → Prop
  | stop {here : List Char} : (∀ rest value, ¬item here rest value) → Greedy item here here []
  | more {here there rest : List Char} {value : T} {values : List T} : item here there value →
      Greedy item there rest values → Greedy item here rest (value :: values)

namespace Reading

variable {T U : Type}

def bind (first : Reading T) (next : T → Reading U) : Reading U :=
  fun here rest value => ∃ there a, first here there a ∧ next a there rest value

def map (r : Reading T) (f : T → U) : Reading U :=
  fun here rest value => ∃ a, r here rest a ∧ value = f a

def Shrinks (r : Reading T) : Prop :=
  ∀ here rest value, r here rest value → rest.length < here.length

def AgreeUpTo (n : Nat) (r s : Reading T) : Prop :=
  ∀ here, here.length ≤ n → ∀ rest value, r here rest value ↔ s here rest value

def Starts (heads : Char → Prop) (r : Reading T) : Prop :=
  ∀ here rest value, r here rest value → ∃ c tail, here = c :: tail ∧ heads c

def after (text : List Char) (r : Reading T) : Reading T :=
  fun here rest value => ∃ there, here = text ++ there ∧ r there rest value

def before (r : Reading T) (text : List Char) : Reading T :=
  fun here rest value => r here (text ++ rest) value

def either (r s : Reading T) : Reading T :=
  fun here rest value => r here rest value ∨ s here rest value

theorem Starts.head {heads : Char → Prop} {r : Reading T} (h : r.Starts heads)
    {here rest : List Char} {value : T} (hr : r here rest value) : ∀ c ∈ here.head?, heads c := by
  obtain ⟨c, tail, rfl, hc⟩ := h here rest value hr
  intro d hd
  cases hd
  exact hc

theorem Starts.mono {heads wider : Char → Prop} {r : Reading T} (h : r.Starts heads)
    (hw : ∀ c, heads c → wider c) : r.Starts wider := by
  intro here rest value hr
  obtain ⟨c, tail, split, hc⟩ := h here rest value hr
  exact ⟨c, tail, split, hw c hc⟩

theorem Starts.either {heads others : Char → Prop} {r s : Reading T} (h : r.Starts heads)
    (hs : s.Starts others) : (r.either s).Starts fun c => heads c ∨ others c := by
  rintro here rest value (hr | hr)
  · exact h.mono (fun _ => .inl) here rest value hr
  · exact hs.mono (fun _ => .inr) here rest value hr

theorem AgreeUpTo.symm {n : Nat} {r s : Reading T} (h : AgreeUpTo n r s) : AgreeUpTo n s r :=
  fun here hl rest value => (h here hl rest value).symm

end Reading

namespace Greedy

variable {T : Type} {item other : Reading T} {here rest : List Char} {values : List T}

theorem length_le (hs : item.Shrinks) (h : Greedy item here rest values) :
    rest.length ≤ here.length := by
  induction h with
  | stop _ => exact le_rfl
  | more first _ ih => exact ih.trans (hs _ _ _ first).le

/-- There always is such a repetition, perhaps of nothing. -/
theorem exists_of_shrinks (hs : item.Shrinks) (here : List Char) :
    ∃ rest values, Greedy item here rest values := by
  by_cases h : ∃ there value, item here there value
  · obtain ⟨there, value, first⟩ := h
    have shorter := hs _ _ _ first
    obtain ⟨rest, values, later⟩ := exists_of_shrinks hs there
    exact ⟨rest, value :: values, .more first later⟩
  · exact ⟨here, [], .stop fun rest value hr => h ⟨rest, value, hr⟩⟩
termination_by here.length

theorem of_none (hn : ∀ rest value, ¬item here rest value) (h : Greedy item here rest values) :
    rest = here ∧ values = [] := by
  cases h with
  | stop _ => exact ⟨rfl, rfl⟩
  | more first _ => exact absurd first (hn _ _)

theorem agree {n : Nat} (hs : item.Shrinks) (h : Reading.AgreeUpTo n item other)
    (hg : Greedy item here rest values) (hl : here.length ≤ n) :
    Greedy other here rest values := by
  induction hg with
  | stop nothing => exact .stop fun rest value hr => nothing rest value ((h _ hl _ _).2 hr)
  | more first _ ih =>
    exact .more ((h _ hl _ _).1 first) (ih ((hs _ _ _ first).le.trans hl))

theorem map_iff {U : Type} {f : T → U} {values : List U} : Greedy (item.map f) here rest values ↔
    ∃ originals, Greedy item here rest originals ∧ values = originals.map f := by
  constructor
  · intro h
    induction h with
    | stop nothing => exact ⟨[], .stop fun rest a ha => nothing rest _ ⟨a, ha, rfl⟩, rfl⟩
    | more first _ ih =>
      obtain ⟨a, ha, rfl⟩ := first
      obtain ⟨originals, later, rfl⟩ := ih
      exact ⟨a :: originals, .more ha later, rfl⟩
  · rintro ⟨originals, h, rfl⟩
    induction h with
    | stop nothing =>
      refine .stop fun rest _ hb => ?_
      obtain ⟨a, ha, _⟩ := hb
      exact nothing rest a ha
    | more first _ ih => exact .more ⟨_, first, rfl⟩ ih

end Greedy

end ParticlePatterns.Parsing
