import Mathlib
import ParticlePatterns.Proofs.Pattern.Instantiation

/-!
# Currying

Arguments behind a choice are passed on to each of its alternatives when the term is compiled,
and one of the alternatives is taken when a value is made. So the choice may as well be made
first, among the alternatives with their arguments. Which one it is depends on the position in
a batch, or on one draw before all others.
-/

set_option autoImplicit false

namespace ParticlePatterns

section Traversal

variable {ε T U V : Type} {f : T → Except ε U} {g : U → Except ε V}

theorem mapM_cons_eq_ok {x : T} {xs : List T} {all : List U} :
    (x :: xs).mapM f = .ok all ↔
      ∃ y ys, f x = .ok y ∧ xs.mapM f = .ok ys ∧ all = y :: ys := by
  rw [List.mapM_cons]
  constructor
  · intro h
    obtain ⟨y, hy, h⟩ := bind_eq_ok.1 h
    obtain ⟨ys, hys, h⟩ := bind_eq_ok.1 h
    cases h
    exact ⟨y, ys, hy, hys, rfl⟩
  · rintro ⟨y, ys, hy, hys, rfl⟩
    rw [hy, hys]
    rfl

/-- Two traversals succeed if one does that takes both steps at once. Where they do not, they
may fail for different reasons. -/
theorem mapM_bind_eq_ok {xs : List T} : ∀ {zs : List V},
    (xs.mapM f >>= fun ys => ys.mapM g) = .ok zs ↔ xs.mapM (fun x => f x >>= g) = .ok zs := by
  induction xs with
  | nil => exact Iff.rfl
  | cons x xs ih =>
    intro all
    rw [mapM_cons_eq_ok, bind_eq_ok]
    constructor
    · rintro ⟨_, hf, hg⟩
      obtain ⟨y, ys, hy, hys, rfl⟩ := mapM_cons_eq_ok.1 hf
      obtain ⟨z, zs, hz, hzs, rfl⟩ := mapM_cons_eq_ok.1 hg
      exact ⟨z, zs, bind_eq_ok.2 ⟨y, hy, hz⟩, ih.1 (bind_eq_ok.2 ⟨ys, hys, hzs⟩), rfl⟩
    · rintro ⟨z, zs, hfg, hzs, rfl⟩
      obtain ⟨y, hy, hz⟩ := bind_eq_ok.1 hfg
      obtain ⟨ys, hys, hzs⟩ := bind_eq_ok.1 (ih.2 hzs)
      exact ⟨y :: ys, mapM_cons_eq_ok.2 ⟨y, ys, hy, hys, rfl⟩,
        mapM_cons_eq_ok.2 ⟨z, zs, hz, hzs, rfl⟩⟩

/-- A traversal succeeds if every step does. -/
theorem exists_mapM_iff {xs : List T} :
    (∃ ys, xs.mapM f = .ok ys) ↔ ∀ x ∈ xs, ∃ y, f x = .ok y := by
  induction xs with
  | nil => exact ⟨fun _ => by simp, fun _ => ⟨[], rfl⟩⟩
  | cons x xs ih =>
    simp only [mapM_cons_eq_ok, List.forall_mem_cons, ← ih]
    constructor
    · rintro ⟨_, y, ys, hy, hys, -⟩
      exact ⟨⟨y, hy⟩, ys, hys⟩
    · rintro ⟨⟨y, hy⟩, ys, hys⟩
      exact ⟨_, y, ys, hy, hys, rfl⟩

end Traversal

section Choosing

variable {α T : Type}

def Mode.pick (mode : Mode) (s : Sibling) (r : Rng) (count : Nat) : Nat × Rng :=
  match mode with
  | each => (s.index % count, r)
  | random => (r.next.1.toNat % count, r.next.2)

theorem Mode.pick_lt (mode : Mode) (s : Sibling) (r : Rng) {count : Nat} (h : 0 < count) :
    (mode.pick s r count).1 < count := by
  cases mode <;> exact Nat.mod_lt _ h

theorem Gen.select_eq {gens : List (Gen α T)} {g : Gen α T} {mode : Mode} {s : Sibling} {r : Rng}
    {count : Nat} (hc : gens.length = count) (h : gens[(mode.pick s r count).1]? = some g) :
    select mode gens s r = g s (mode.pick s r count).2 := by
  subst hc
  cases mode with
  | each =>
    simp only [Mode.pick] at h ⊢
    rw [select, h]
  | random =>
    have stocked : gens.length ≠ 0 := by
      rintro empty
      simp [List.length_eq_zero_iff.1 empty] at h
    simp only [Mode.pick] at h ⊢
    simp [select, Rng.index, stocked, h]

end Choosing

variable {α T : Type} [Scalar α]

namespace Meaning

variable (q : Query α T)

theorem ask_choice (mode : Mode) (alternatives : List (Meaning α)) :
    ask q (.choice mode alternatives) = (alternatives.mapM (ask q)).map (.select mode) := by
  rw [ask, askAll_eq_mapM]
  cases alternatives.mapM (ask q) <;> rfl

def askWith (args : List (Argument α)) (m : Meaning α) : Except (CompileError α) (Gen α T) :=
  m.withArguments args >>= ask q

/-- An operator stands for what it is without arguments, and anything else for itself. -/
theorem askWith_nil (m : Meaning α) : askWith q [] m = ask q m := by
  rw [askWith, withArguments_nil]
  cases m with
  | operator op => cases op <;> rfl
  | _ => rfl

/-- With arguments or without, a choice is asked for each of its alternatives. -/
theorem askWith_choice_eq_ok {args : List (Argument α)} {mode : Mode} {ms : List (Meaning α)}
    {gen : Gen α T} : askWith q args (.choice mode ms) = .ok gen ↔
      ∃ gens, ms.mapM (askWith q args) = .ok gens ∧ Gen.select mode gens = gen := by
  cases args with
  | nil =>
    have plain : askWith q [] = ask q := funext (askWith_nil q)
    rw [plain, ask_choice, map_eq_ok]
  | cons a rest =>
    rw [askWith, withArguments, withArgumentsAll_eq_mapM, bind_eq_ok]
    constructor
    · rintro ⟨_, curried, asked⟩
      obtain ⟨ms', hms', rfl⟩ := map_eq_ok.1 curried
      rw [ask_choice] at asked
      obtain ⟨gens, hgens, rfl⟩ := map_eq_ok.1 asked
      exact ⟨gens, mapM_bind_eq_ok.1 (bind_eq_ok.2 ⟨ms', hms', hgens⟩), rfl⟩
    · rintro ⟨gens, hgens, rfl⟩
      obtain ⟨ms', hms', hgens⟩ := bind_eq_ok.1 (mapM_bind_eq_ok.2 hgens)
      exact ⟨_, map_eq_ok.2 ⟨ms', hms', rfl⟩, by rw [ask_choice, hgens]; rfl⟩

end Meaning

namespace Term

variable (q : Meaning.Query α T)

def asked (t : Term α) : Except (CompileError α) (Gen α T) :=
  t.meaning >>= Meaning.ask q

theorem asked_list (t : Term α) (args : List (Term α)) :
    (list (t :: args)).asked q =
      (t.meaning >>= Meaning.askWith q (arguments args) : Except (CompileError α) _) := by
  rw [asked, meaning]
  cases t.meaning <;> rfl

theorem mapM_meaning_arguments (ts : List (Term α)) :
    (arguments ts).mapM (m := Except (CompileError α)) (fun a => a.meaning.get) =
      ts.mapM (m := Except (CompileError α)) meaning := by
  induction ts with
  | nil => rfl
  | cons t ts ih =>
    rw [arguments, List.mapM_cons, List.mapM_cons, ih]
    rfl

theorem meaning_choice (mode : Mode) {us : List (Term α)} (h : us ≠ []) :
    (list (.symbol mode.bracket.choice :: us)).meaning =
      (us.mapM (m := Except (CompileError α)) meaning).map (.choice mode) := by
  have operator : (symbol mode.bracket.choice : Term α).meaning =
      .ok (.operator (.choice mode)) := by
    cases mode <;> rfl
  obtain ⟨u, rest, rfl⟩ := List.exists_cons_of_ne_nil h
  rw [meaning, operator, ← mapM_meaning_arguments]
  rfl

/-- A choice with arguments is the choice among its alternatives with these arguments. -/
theorem asked_choice_eq_ok {mode : Mode} {us : List (Term α)} (h : us ≠ [])
    {args : List (Term α)} {gen : Gen α T} :
    (list (list (.symbol mode.bracket.choice :: us) :: args)).asked q = .ok gen ↔
      ∃ gens, us.mapM (fun u => (list (u :: args)).asked q) = .ok gens ∧
        Gen.select mode gens = gen := by
  have pairs : (fun u => (list (u :: args)).asked q) =
      fun u => (u.meaning >>= Meaning.askWith q (arguments args) : Except (CompileError α) _) :=
    funext fun u => asked_list q u args
  rw [pairs, asked_list, meaning_choice mode h, bind_eq_ok]
  constructor
  · rintro ⟨_, curried, asked⟩
    obtain ⟨ms, hms, rfl⟩ := map_eq_ok.1 curried
    obtain ⟨gens, hgens, rfl⟩ := (Meaning.askWith_choice_eq_ok q).1 asked
    exact ⟨gens, mapM_bind_eq_ok.1 (bind_eq_ok.2 ⟨ms, hms, hgens⟩), rfl⟩
  · rintro ⟨gens, hgens, rfl⟩
    obtain ⟨ms, hms, hgens⟩ := bind_eq_ok.1 (mapM_bind_eq_ok.2 hgens)
    exact ⟨_, map_eq_ok.2 ⟨ms, hms, rfl⟩, (Meaning.askWith_choice_eq_ok q).2 ⟨gens, hgens, rfl⟩⟩

end Term

/-- To pass arguments on through a choice is to choose among the alternatives with these
arguments. As whatever kind of meaning: it compiles if and only if each of the alternatives
does with the arguments behind it, and it makes what the one makes that is picked. A position
in a batch picks without a draw, and a random state with one draw before all others. -/
theorem currying_distributes (q : Meaning.Query α T) (mode : Mode) {us : List (Term α)}
    (hu : us ≠ []) (args : List (Term α)) :
    let curried : Term α := .list (.list (.symbol mode.bracket.choice :: us) :: args)
    ((∃ gen, curried.asked q = .ok gen) ↔
      ∀ u ∈ us, ∃ gen, (Term.list (u :: args)).asked q = .ok gen) ∧
    ∀ gen, curried.asked q = .ok gen → ∀ s r, ∃ u g,
      us[(mode.pick s r us.length).1]? = some u ∧ (Term.list (u :: args)).asked q = .ok g ∧
        gen s r = g s (mode.pick s r us.length).2 := by
  intro curried
  refine ⟨?_, fun gen compiled s r => ?_⟩
  · rw [← exists_mapM_iff]
    constructor
    · rintro ⟨gen, compiled⟩
      obtain ⟨gens, hgens, -⟩ := (Term.asked_choice_eq_ok q hu).1 compiled
      exact ⟨gens, hgens⟩
    · rintro ⟨gens, hgens⟩
      exact ⟨_, (Term.asked_choice_eq_ok q hu).2 ⟨gens, hgens, rfl⟩⟩
  · obtain ⟨gens, hgens, rfl⟩ := (Term.asked_choice_eq_ok q hu).1 compiled
    obtain ⟨length, pairs⟩ := List.forall₂_iff_get.1 (forall₂_of_mapM hgens)
    have within := mode.pick_lt s r (List.length_pos_of_ne_nil hu)
    have within' := within.trans_eq length
    exact ⟨us[(mode.pick s r us.length).1], gens[(mode.pick s r us.length).1],
      List.getElem?_eq_getElem within, pairs _ within within',
      Gen.select_eq length.symm (List.getElem?_eq_getElem within')⟩

open Exact (real)

/-- A draw between a lifespan and another choice, of an easing and a model, in front of what
they are for. -/
theorem currying_distributes_nested :
    let inner : Term Exact := .list [.symbol "each-choice", .symbol "linear", .symbol "orb"]
    let us : List (Term Exact) := [.number (real 2), inner, .symbol "loop"]
    let args : List (Term Exact) := [.symbol "nop"]
    let curried : Term Exact := .list (.list (.symbol "random-choice" :: us) :: args)
    us ≠ [] ∧ ∃ gen, curried.asked Meaning.behaviors = .ok gen ∧ ∀ s r, ∃ u g,
      us[r.next.1.toNat % 3]? = some u ∧
        (Term.list (u :: args)).asked Meaning.behaviors = .ok g ∧ gen s r = g s r.next.2 := by
  intro inner us args curried
  have nonempty : us ≠ [] := by simp [us]
  obtain ⟨-, makes⟩ := currying_distributes Meaning.behaviors .random nonempty args
  obtain ⟨gen, compiled⟩ : ∃ gen, curried.asked Meaning.behaviors = .ok gen := ⟨_, rfl⟩
  exact ⟨nonempty, gen, compiled, makes gen compiled⟩

end ParticlePatterns
