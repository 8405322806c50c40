import Mathlib
import ParticlePatterns.Proofs.Term.RoundTrip
import ParticlePatterns.Term.Data

/-!
# Programs through their stored form

What is stored is read back if it could be printed, and otherwise refused: for its shape, where
a number is not finite, and else for the first of its symbols that is none. What is read can be
printed, and stored again it is what was read, with every number the nearest there is.
-/

set_option autoImplicit false

namespace ParticlePatterns

variable {ν : Type}

mutual
def Term.leaves : Term ν → List (ν ⊕ String)
  | .number value => [.inl value]
  | .symbol name => [.inr name]
  | .list elements => Term.leavesAll elements
def Term.leavesAll : List (Term ν) → List (ν ⊕ String)
  | [] => []
  | t :: rest => t.leaves ++ Term.leavesAll rest
end

def Program.numbers (p : Program ν) : List ν :=
  (Term.leavesAll p).filterMap Sum.getLeft?

def Program.symbols (p : Program ν) : List String :=
  (Term.leavesAll p).filterMap Sum.getRight?

variable [Numeral ν]

mutual
def Data.nearest : Data ν → Data ν
  | .null => .null
  | .boolean value => .boolean value
  | .integer value => .number (Numeral.ofInt value)
  | .number value => .number value
  | .text value => .text value
  | .array items => .array (Data.nearestAll items)
  | .record fields => .record fields
def Data.nearestAll : List (Data ν) → List (Data ν)
  | [] => []
  | d :: rest => d.nearest :: Data.nearestAll rest
end

def storable : ν ⊕ String → Bool
  | .inl value => Numeral.isFinite value
  | .inr _ => true

def leafFlaw? : ν ⊕ String → Option (LoadError ν)
  | .inl value => if Numeral.isFinite value then none else some (.nonFinite value)
  | .inr name => if Token.isSymbol name then none else some (.invalidSymbol name)

namespace Term

theorem flaw?_eq (t : Term ν) : t.flaw? = t.leaves.findSome? leafFlaw? := by
  induction t with
  | number value => simp [flaw?, leaves, leafFlaw?]
  | symbol name => simp [flaw?, leaves, leafFlaw?]
  | list elements ih =>
    rw [flaw?, leaves]
    induction elements with
    | nil => rfl
    | cons t rest later =>
      rw [firstFlaw?, leavesAll, List.findSome?_append, ih t (by simp)]
      rw [later fun s hs => ih s (by simp [hs])]
      cases t.leaves.findSome? leafFlaw? <;> rfl

theorem firstFlaw?_eq (ts : List (Term ν)) :
    firstFlaw? ts = (leavesAll ts).findSome? leafFlaw? := by
  have whole := flaw?_eq (.list ts)
  rwa [flaw?, leaves] at whole

theorem ofData?_toData (t : Term ν) :
    ofData? t.toData = if t.leaves.all storable then some t else none := by
  induction t with
  | number value =>
    by_cases h : Numeral.isFinite value = true <;> simp [toData, ofData?, leaves, storable, h]
  | symbol name => simp [toData, ofData?, leaves, storable]
  | list elements ih =>
    have parts : allOfData? (allToData elements) =
        if (leavesAll elements).all storable then some elements else none := by
      induction elements with
      | nil => rfl
      | cons t rest later =>
        rw [allToData, allOfData?, leavesAll, List.all_append, ih t (by simp)]
        rw [later fun s hs => ih s (by simp [hs])]
        by_cases first : t.leaves.all storable = true <;>
          by_cases behind : (leavesAll rest).all storable = true <;> simp [first, behind]
    rw [toData, ofData?, parts, leaves]
    by_cases h : (leavesAll elements).all storable = true <;> simp [h]

theorem allOfData?_allToData (ts : List (Term ν)) : allOfData? (allToData ts) =
    if (leavesAll ts).all storable then some ts else none := by
  have whole := ofData?_toData (.list ts)
  rw [toData, ofData?, leaves] at whole
  by_cases h : (leavesAll ts).all storable = true
  · rw [if_pos h] at whole ⊢
    simpa using whole
  · rw [if_neg h] at whole ⊢
    simpa using whole

theorem printable_iff (t : Term ν) : t.Printable ↔ ∀ l ∈ t.leaves, leafFlaw? l = none := by
  induction t with
  | number value =>
    have here : (number value).Printable ↔ Numeral.isFinite value = true :=
      ⟨fun h => by cases h; assumption, .number⟩
    simp [here, leaves, leafFlaw?]
  | symbol name =>
    have here : (symbol name : Term ν).Printable ↔ Token.isSymbol name = true :=
      ⟨fun h => by cases h; assumption, .symbol⟩
    simp [here, leaves, leafFlaw?]
  | list elements ih =>
    have here : (list elements).Printable ↔ ∀ t ∈ elements, t.Printable :=
      ⟨fun h => by cases h; assumption, .list⟩
    rw [here, leaves]
    induction elements with
    | nil => simp [leavesAll]
    | cons t rest later =>
      have behind := later (fun s hs => ih s (by simp [hs]))
        ⟨fun h => by cases h; assumption, .list⟩
      simp only [List.forall_mem_cons, leavesAll, List.forall_mem_append, ih t (by simp), behind]

end Term

/-- Among stored leaves only symbols can be wrong. -/
theorem findSome?_leafFlaw? {leaves : List (ν ⊕ String)} (h : leaves.all storable = true) :
    leaves.findSome? leafFlaw? = ((leaves.filterMap Sum.getRight?).find? fun name =>
      !Token.isSymbol name).map .invalidSymbol := by
  induction leaves with
  | nil => rfl
  | cons leaf rest ih =>
    rw [List.all_cons, Bool.and_eq_true] at h
    cases leaf with
    | inl value =>
      have fine : leafFlaw? (.inl value) = none := if_pos h.1
      simpa [List.findSome?_cons, fine] using ih h.2
    | inr name =>
      by_cases hn : Token.isSymbol name = true
      · simpa [List.findSome?_cons, leafFlaw?, hn] using ih h.2
      · simp [leafFlaw?, hn]

mutual
theorem Term.toData_of_ofData? : ∀ (d : Data ν) {t : Term ν}, Term.ofData? d = some t →
    t.Printable → t.toData = d.nearest
  | .null, _, h, _ => by
      cases h
  | .boolean _, _, h, _ => by
      cases h
  | .record _, _, h, _ => by
      cases h
  | .integer _, _, h, printable => by
      cases h
      cases printable with
      | number finite => rw [Term.toData, if_pos finite, Data.nearest]
  | .number _, _, h, printable => by
      cases h
      cases printable with
      | number finite => rw [Term.toData, if_pos finite, Data.nearest]
  | .text _, _, h, _ => by
      cases h
      rw [Term.toData, Data.nearest]
  | .array items, t, h, printable => by
      rw [Term.ofData?] at h
      obtain ⟨ts, hts, rfl⟩ := Option.map_eq_some_iff.1 h
      cases printable with
      | list each => rw [Term.toData, Data.nearest, allToData_of_allOfData? items hts each]
theorem Term.allToData_of_allOfData? : ∀ (ds : List (Data ν)) {ts : List (Term ν)},
    Term.allOfData? ds = some ts → (∀ t ∈ ts, t.Printable) →
    Term.allToData ts = Data.nearestAll ds
  | [], _, h, _ => by
      cases h
      rw [Term.allToData, Data.nearestAll]
  | d :: rest, ts, h, printable => by
      rw [Term.allOfData?] at h
      split at h
      next t terms ht hterms =>
        cases h
        rw [Term.allToData, Data.nearestAll, toData_of_ofData? d ht (printable t (by simp)),
          allToData_of_allOfData? rest hterms fun s hs => printable s (by simp [hs])]
      · cases h
end

namespace Program

theorem forall_printable_iff (p : Program ν) :
    (∀ t ∈ p, t.Printable) ↔ ∀ l ∈ Term.leavesAll p, leafFlaw? l = none := by
  have whole := Term.printable_iff (.list p)
  rw [Term.leaves] at whole
  rw [← whole]
  exact ⟨.list, fun h => by cases h; assumption⟩

theorem all_storable_iff (p : Program ν) :
    (Term.leavesAll p).all storable = true ↔ ∀ x ∈ p.numbers, Numeral.isFinite x = true := by
  simp only [numbers, List.mem_filterMap, List.all_eq_true, Sum.forall, Sum.exists, storable]
  simp

/-- What becomes of a program that is stored and read back. -/
theorem load_dump_eq (p : Program ν) : load p.dump =
    if (Term.leavesAll p).all storable then
      match p.symbols.find? fun name => !Token.isSymbol name with
      | none => .ok p
      | some name => .error (.invalidSymbol name)
    else .error .notTerm := by
  rw [dump, load, Term.allOfData?_allToData]
  by_cases h : (Term.leavesAll p).all storable = true
  · simp only [h, if_true, Term.firstFlaw?_eq, findSome?_leafFlaw? h, symbols]
    cases List.find? _ _ <;> rfl
  · simp only [h]
    rfl

theorem load_dump_of_printable {p : Program ν} (h : ∀ t ∈ p, t.Printable) :
    load p.dump = .ok p := by
  have flawless := (forall_printable_iff p).1 h
  have stored : (Term.leavesAll p).all storable = true := by
    refine List.all_eq_true.2 fun leaf hl => ?_
    cases leaf with
    | inl value => simpa [leafFlaw?, storable] using flawless _ hl
    | inr name => rfl
  have symbols : p.symbols.find? (fun name => !Token.isSymbol name) = none := by
    have none_found := findSome?_leafFlaw? stored
    rw [List.findSome?_eq_none_iff.2 flawless] at none_found
    exact Option.map_eq_none_iff.1 none_found.symm
  rw [load_dump_eq, if_pos stored, symbols]

/-- What is read has the shape of a program and no flaw. -/
theorem load_eq_ok {d : Data ν} {p : Program ν} (h : load d = .ok p) :
    (∀ t ∈ p, t.Printable) ∧ p.dump = d.nearest := by
  unfold load at h
  split at h
  next items =>
    split at h
    · cases h
    next q shape =>
      split at h
      · cases h
      next sound =>
        cases h
        have printable : ∀ t ∈ p, t.Printable := by
          rw [Term.firstFlaw?_eq] at sound
          exact (forall_printable_iff p).2 (List.findSome?_eq_none_iff.1 sound)
        refine ⟨printable, ?_⟩
        rw [dump, Data.nearest, Term.allToData_of_allOfData? items shape printable]
  · cases h

end Program

/-- A stored program is read back as it was just when it can be printed. It is refused for its
shape if a number is not finite, whatever the symbols are, and else for the first symbol that
is none. What is read from any data can be printed in every style, and is stored as that data
with the nearest number in place of every integer. -/
theorem stored_gate [Numeral.Faithful ν] :
    (∀ p : Program ν, (Program.load p.dump = .ok p ↔ ∀ t ∈ p, t.Printable) ∧
      ((∃ x ∈ p.numbers, Numeral.isFinite x = false) →
        ∃ e : LoadError ν, e.isShape = true ∧ Program.load p.dump = .error e) ∧
      ((∀ x ∈ p.numbers, Numeral.isFinite x = true) → (¬∀ t ∈ p, t.Printable) →
        ∃ name, (p.symbols.find? fun name => !Token.isSymbol name) = some name ∧
          Program.load p.dump = .error (.invalidSymbol name))) ∧
    ∀ (d : Data ν) (p : Program ν), Program.load d = .ok p →
      (∀ t ∈ p, t.Printable) ∧
      (∀ o : PrintStyle, Program.parse (String.ofList (Program.print o p)) = .ok p) ∧
      p.dump = d.nearest := by
  refine ⟨fun p => ?_, fun d p h => ?_⟩
  · have found := Program.load_dump_eq p
    have finite_iff := Program.all_storable_iff p
    refine ⟨⟨fun h => (Program.load_eq_ok h).1, Program.load_dump_of_printable⟩, ?_,
      fun finite flawed => ?_⟩
    · rintro ⟨x, hx, infinite⟩
      have gap : ¬(Term.leavesAll p).all storable = true := by
        intro all
        rw [finite_iff.1 all x hx] at infinite
        cases infinite
      rw [if_neg gap] at found
      exact ⟨.notTerm, rfl, found⟩
    · rw [if_pos (finite_iff.2 finite)] at found
      split at found
      · exact absurd (Program.load_eq_ok found).1 flawed
      next name first => exact ⟨name, first, found⟩
  · obtain ⟨printable, same⟩ := Program.load_eq_ok h
    exact ⟨printable, fun o => Program.reads_back o printable, same⟩

instance Numeral.wholeOrNot : Numeral (Option Int) where
  read? text := (Numeral.read? text : Option Int).map some
  write n := n.elim "inf".toList Numeral.write
  writeScientific n := n.elim "inf".toList Numeral.writeScientific
  writeFixed places n := n.elim "inf".toList (Numeral.writeFixed places)
  isFinite n := n.isSome
  ofInt n := some n

instance : Numeral.Faithful (Option Int) where
  isPlain_write
    | some n, _ => Numeral.Faithful.isPlain_write n rfl
  read?_write
    | some n, _ => by
      show (Numeral.read? (Numeral.write n) : Option Int).map some = _
      rw [Numeral.Faithful.read?_write n rfl]
      rfl

/-- One program that is read back, one with an infinite number behind what is no symbol, one
with two names that are none, and data with an integer. -/
theorem stored_gate_lists :
    let speed : Term (Option Int) := .list [.symbol "speed*", .number (some 2)]
    let blank : Term (Option Int) := .list [.symbol "a b", .number none]
    let nested : Term (Option Int) := .list [.number (some 1), .list [.symbol "1x", .symbol "a b"]]
    let d : Data (Option Int) := .array [.array [.text "speed*", .integer 2]]
    Program.load (Program.dump [speed, speed]) = .ok [speed, speed] ∧
      (∃ e : LoadError (Option Int), e.isShape = true ∧
        Program.load (Program.dump [speed, blank]) = .error e) ∧
      Program.load (Program.dump [speed, nested]) = .error (.invalidSymbol "1x") ∧
      Program.load d = .ok [speed] ∧ Program.dump [speed] = d.nearest ∧
      Program.parse (String.ofList (Program.print .compact [speed])) = .ok [speed] := by
  intro speed blank nested d
  obtain ⟨stored, read⟩ := stored_gate (ν := Option Int)
  have printable : speed.Printable := by
    refine .list ?_
    simp only [List.forall_mem_cons]
    exact ⟨.symbol (by decide), .number rfl, by simp⟩
  have loaded : Program.load d = .ok [speed] := rfl
  have first : (Program.symbols [speed, nested]).find? (fun name => !Token.isSymbol name) =
      some "1x" := by decide
  have flawed : ¬∀ t ∈ [speed, nested], t.Printable := by
    intro all
    have inside : .inr "1x" ∈ Term.leavesAll [speed, nested] := by
      simp [Term.leavesAll, Term.leaves, speed, nested]
    cases (Program.forall_printable_iff _).1 all _ inside
  obtain ⟨_, printed, same⟩ := read d [speed] loaded
  refine ⟨(stored _).1.2 (by simpa using printable), (stored _).2.1 ⟨none, by decide, rfl⟩, ?_,
    loaded, same, printed .compact⟩
  obtain ⟨name, found, refused⟩ := (stored [speed, nested]).2.2 (by decide) flawed
  rw [first, Option.some.injEq] at found
  exact found ▸ refused

end ParticlePatterns
