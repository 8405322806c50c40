import ParticlePatterns.Proofs.Parsing.Traces

/-!
# The order of entries
-/

set_option autoImplicit false

namespace ParticlePatterns.Parsing

namespace Traced

variable {R T U : Type}

/-- Rules are entered on the way from where a parser starts to where it stops, and a deferred
entry lies behind all earlier ones. -/
structure Orderly (p : Traced R T) : Prop where
  onward : p.parser.Onward
  after : ∀ here, ∀ e ∈ p.entries here, here.offset ≤ e.offset
  before : ∀ here stop, (p.parser here).stop? = some stop →
    ∀ e ∈ p.entries here, e.offset ≤ stop.offset
  fresh : ∀ here, (p.entries here).Pairwise fun earlier e => e.deferred → earlier.offset < e.offset

def Sealed (p : Traced R T) : Prop :=
  ∀ here value next, p.parser here = .ok value next →
    here.offset < next.offset ∧ ∀ e ∈ p.entries here, e.offset < next.offset

def Guarded (p : Traced R T) : Prop :=
  ∀ here, ∀ e ∈ p.entries here, e.deferred → here.offset < e.offset

def Behind (p : Traced R T) : Prop :=
  ∀ here, ∀ e ∈ p.entries here, here.offset < e.offset

theorem Orderly.before_ok {p : Traced R T} (h : p.Orderly) {here next : Cursor} {value : T}
    (run : p.parser here = .ok value next) : ∀ e ∈ p.entries here, e.offset ≤ next.offset :=
  h.before here next (by rw [run]; rfl)

theorem Orderly.before_fail {p : Traced R T} (h : p.Orderly) {here stop : Cursor}
    {failure : Failure} (run : p.parser here = .fail failure stop) :
    ∀ e ∈ p.entries here, e.offset ≤ stop.offset :=
  h.before here stop (by rw [run]; rfl)

theorem Behind.guarded {p : Traced R T} (h : p.Behind) : p.Guarded :=
  fun here e he _ => h here e he

def Silent (p : Traced R T) : Prop :=
  ∀ here, p.entries here = []

section Silent

variable {p : Traced R T}

theorem silent_read (p : Parser T) : (read p : Traced R T).Silent :=
  fun _ => rfl

theorem Silent.orderly (h : p.Silent) (onward : p.parser.Onward) : p.Orderly :=
  ⟨onward, by simp [h _], by simp [h _], fun here => by simp [h here]⟩

theorem Silent.behind (h : p.Silent) : p.Behind := by
  simp [Behind, h _]

theorem Silent.sealed (h : p.Silent) (consumes : p.parser.Consumes) : p.Sealed :=
  fun here value next run => ⟨consumes here value next run, by simp [h here]⟩

end Silent

section Bind

variable {p : Traced R T} {q : T → Traced R U} {here : Cursor}

theorem mem_entries_bind {e : Entry R} : e ∈ (p.bind q).entries here ↔
    e ∈ p.entries here ∨ ∃ value there, p.parser here = .ok value there ∧
      e ∈ (q value).entries there := by
  simp only [bind, List.mem_append]
  cases p.parser here <;> simp

/-- Either nothing deferred stands at the seam, or nothing that was entered before. -/
theorem Orderly.bind (hp : p.Orderly) (hq : ∀ value, (q value).Orderly)
    (seam : p.Sealed ∨ ∀ value, (q value).Guarded) : (p.bind q).Orderly := by
  refine ⟨hp.onward.bind fun value => (hq value).onward, ?_, ?_, ?_⟩
  · intro here e he
    obtain first | ⟨value, there, run, second⟩ := mem_entries_bind.1 he
    · exact hp.after here e first
    · exact (hp.onward.ok run).offset_le.trans ((hq value).after there e second)
  · intro here stop came e he
    rw [parser_bind, Parser.bind] at came
    cases run : p.parser here with
    | ok value there =>
      simp only [run] at came
      obtain first | ⟨_, _, run', second⟩ := mem_entries_bind.1 he
      · have until_there := hp.before_ok run e first
        exact until_there.trans ((hq value).onward there stop came).offset_le
      · cases run.symm.trans run'
        exact (hq value).before there stop came e second
    | fail failure there =>
      simp only [run] at came
      cases came
      obtain first | ⟨_, _, run', _⟩ := mem_entries_bind.1 he
      · exact hp.before_fail run e first
      · cases run.symm.trans run'
    | exhausted =>
      simp only [run] at came
      cases came
  · intro here
    simp only [Traced.bind]
    refine List.pairwise_append.2 ⟨hp.fresh here, ?_, ?_⟩
    · cases p.parser here with
      | ok value there => exact (hq value).fresh there
      | fail | exhausted => exact .nil
    · intro earlier first e second deferred
      cases run : p.parser here with
      | ok value there =>
        rw [run] at second
        obtain closed | guarded := seam
        · have passed := (closed here value there run).2 earlier first
          exact passed.trans_le ((hq value).after there e second)
        · have until_there := hp.before_ok run earlier first
          exact until_there.trans_lt (guarded value there e second deferred)
      | fail | exhausted =>
        rw [run] at second
        cases second

theorem Guarded.bind (hp : p.Guarded) (onward : p.parser.Onward)
    (hq : ∀ value, (q value).Guarded) : (p.bind q).Guarded := by
  intro here e he deferred
  obtain first | ⟨value, there, run, second⟩ := mem_entries_bind.1 he
  · exact hp here e first deferred
  · exact (onward.ok run).offset_le.trans_lt (hq value there e second deferred)

/-- Behind what was read. -/
theorem Behind.bind (hp : p.Behind) (consumes : p.parser.Consumes)
    (hq : ∀ value, (q value).Orderly) : (p.bind q).Behind := by
  intro here e he
  obtain first | ⟨value, there, run, second⟩ := mem_entries_bind.1 he
  · exact hp here e first
  · exact (consumes here value there run).trans_le ((hq value).after there e second)

theorem Sealed.of_second (hp : p.Orderly) (hq : ∀ value, (q value).Sealed) :
    (p.bind q).Sealed := by
  intro here value next run
  obtain ⟨a, there, first, second⟩ := Parser.bind_ok run
  obtain ⟨moved, passed⟩ := hq a there value next second
  refine ⟨(hp.onward.ok first).offset_le.trans_lt moved, fun e he => ?_⟩
  obtain he | ⟨_, _, first', he⟩ := mem_entries_bind.1 he
  · exact (hp.before_ok first e he).trans_lt moved
  · cases first.symm.trans first'
    exact passed e he

theorem Silent.bind (hp : p.Silent) (hq : ∀ value, (q value).Silent) : (p.bind q).Silent := by
  intro here
  rw [List.eq_nil_iff_forall_not_mem]
  intro e he
  obtain first | ⟨value, there, _, second⟩ := mem_entries_bind.1 he
  · simp [hp here] at first
  · simp [hq value there] at second

theorem Sealed.then_silent (hp : p.Sealed) (hq : ∀ value, (q value).Silent)
    (onward : ∀ value, (q value).parser.Onward) : (p.bind q).Sealed := by
  intro here value next run
  obtain ⟨a, there, first, second⟩ := Parser.bind_ok run
  obtain ⟨moved, passed⟩ := hp here a there first
  have later := ((onward a).ok second).offset_le
  refine ⟨moved.trans_le later, fun e he => ?_⟩
  obtain he | ⟨b, _, _, none⟩ := mem_entries_bind.1 he
  · exact (passed e he).trans_le later
  · simp [hq b _] at none

end Bind

section Map

variable {p : Traced R T} {f : T → U}

theorem Silent.map (h : p.Silent) (f : T → U) : (p.map f).Silent :=
  h.bind fun _ => silent_read _

theorem Orderly.map (h : p.Orderly) (f : T → U) : (p.map f).Orderly :=
  h.bind (fun value => (silent_read _).orderly (Parser.onward_pure (f value)))
    (.inr fun _ => (silent_read _).behind.guarded)

theorem Guarded.map (h : p.Guarded) (onward : p.parser.Onward) (f : T → U) : (p.map f).Guarded :=
  h.bind onward fun _ => (silent_read _).behind.guarded

theorem Sealed.map (h : p.Sealed) (f : T → U) : (p.map f).Sealed :=
  h.then_silent (fun _ => silent_read _) fun value => Parser.onward_pure (f value)

end Map

section Skip

variable {p : Traced R T} {q : Traced R U}

theorem Orderly.skip (hp : p.Orderly) (hq : q.Orderly) (seam : p.Sealed ∨ q.Guarded) :
    (p.skip q).Orderly :=
  hp.bind (fun value => hq.map fun _ => value)
    (seam.imp_right fun guarded value => guarded.map hq.onward fun _ => value)

theorem Guarded.skip (hp : p.Guarded) (onward : p.parser.Onward) (hq : q.Guarded)
    (onward' : q.parser.Onward) : (p.skip q).Guarded :=
  hp.bind onward fun value => hq.map onward' fun _ => value

theorem Sealed.skip_silent (hp : p.Sealed) (hq : q.Silent) (onward : q.parser.Onward) :
    (p.skip q).Sealed :=
  hp.then_silent (fun value => hq.map fun _ => value) fun value => onward.map fun _ => value

end Skip

section Label

variable {p : Traced R T}

theorem Orderly.label (h : p.Orderly) (expected : String) : (p.label expected).Orderly :=
  ⟨h.onward.label expected, h.after, fun here stop came =>
    h.before here stop ((Parser.stop?_label p.parser expected here).symm.trans came), h.fresh⟩

theorem Sealed.label (h : p.Sealed) (expected : String) : (p.label expected).Sealed :=
  fun here value next came => h here value next (Parser.label_ok came)

end Label

section Choice

variable {p : Traced R T} {ps : List (Traced R T)} {here : Cursor}

/-- Either an alternative balks and the others are tried, or it decides. -/
theorem tried_cons (here : Cursor) (p : Traced R T) (ps : List (Traced R T)) :
    (p.parser.Balks here ∧ tried here (p :: ps) = p :: tried here ps ∧
      ∀ earlier, ∃ merged, Parser.tryEach earlier ((p :: ps).map parser) here =
        Parser.tryEach merged (ps.map parser) here) ∨
    (tried here (p :: ps) = [p] ∧
      ∀ earlier, Parser.tryEach earlier ((p :: ps).map parser) here = p.parser here) := by
  rw [tried, List.map_cons]
  simp only [Parser.tryEach]
  cases run : p.parser here with
  | ok value next => exact .inr ⟨rfl, fun _ => rfl⟩
  | exhausted => exact .inr ⟨rfl, fun _ => rfl⟩
  | fail failure stop =>
    by_cases same : stop.offset = here.offset
    · refine .inl ⟨⟨failure, stop, run, same⟩, by simp [same], fun earlier => ?_⟩
      simp only [same, ne_eq, not_true, if_false]
      exact ⟨_, rfl⟩
    · exact .inr ⟨by simp [same], fun earlier => by simp [same]⟩

theorem tried_sublist (here : Cursor) (ps : List (Traced R T)) :
    (tried here ps).Sublist ps := by
  induction ps with
  | nil => exact .slnil
  | cons p ps ih =>
    obtain ⟨_, same, _⟩ | ⟨same, _⟩ := tried_cons here p ps
    · rw [same]
      exact ih.cons_cons p
    · rw [same]
      exact (List.nil_sublist ps).cons_cons p

/-- All that are tried before another one balk. -/
theorem tried_balk (here : Cursor) (ps : List (Traced R T)) :
    (tried here ps).Pairwise fun p _ => p.parser.Balks here := by
  induction ps with
  | nil => exact .nil
  | cons p ps ih =>
    obtain ⟨balks, same, _⟩ | ⟨same, _⟩ := tried_cons here p ps
    · rw [same]
      exact ih.cons fun _ _ => balks
    · rw [same]
      exact List.pairwise_singleton _ _

theorem Orderly.le_of_balks (h : p.Orderly) (balks : p.parser.Balks here) :
    ∀ e ∈ p.entries here, e.offset ≤ here.offset := by
  obtain ⟨failure, stop, run, same⟩ := balks
  exact same ▸ h.before_fail run

theorem tried_before (h : ∀ p ∈ ps, p.Orderly) {earlier : Option Failure} {stop : Cursor}
    (came : (Parser.tryEach earlier (ps.map parser) here).stop? = some stop) :
    ∀ p ∈ tried here ps, ∀ e ∈ p.entries here, e.offset ≤ stop.offset := by
  have onward : (Parser.tryEach earlier (ps.map parser)).Onward :=
    Parser.onward_tryEach (by simpa using fun p hp => (h p hp).onward) earlier
  have passed := (onward here stop came).offset_le
  induction ps generalizing earlier with
  | nil => simp [tried]
  | cons p ps ih =>
    obtain ⟨first, later⟩ := List.forall_mem_cons.1 h
    obtain ⟨balks, same, more⟩ | ⟨same, decides⟩ := tried_cons here p ps
    · obtain ⟨merged, next⟩ := more earlier
      rw [next] at came
      rw [same]
      refine List.forall_mem_cons.2 ⟨fun e he => ?_, ih later came
        (Parser.onward_tryEach (by simpa using fun p hp => (later p hp).onward) merged)⟩
      exact (first.le_of_balks balks e he).trans passed
    · rw [decides] at came
      simpa [same] using first.before here stop came

theorem Orderly.choice (h : ∀ p ∈ ps, p.Orderly)
    (seams : ps.Pairwise fun p q => p.Behind ∨ q.Guarded) : (choice ps).Orderly := by
  refine ⟨Parser.onward_choice (by simpa using fun p hp => (h p hp).onward), ?_, ?_, ?_⟩
  · intro here e he
    obtain ⟨p, hp, he⟩ := List.mem_flatMap.1 he
    exact (h p ((tried_sublist here ps).mem hp)).after here e he
  · intro here stop came e he
    obtain ⟨p, hp, he⟩ := List.mem_flatMap.1 he
    exact tried_before h came p hp e he
  · intro here
    -- a later alternative is only tried where the earlier one stayed, with all it had entered
    have seams' := (seams.sublist (tried_sublist here ps)).and (tried_balk here ps)
    refine List.pairwise_flatMap.2 ⟨fun p hp => ?_, seams'.imp_of_mem ?_⟩
    · exact (h p ((tried_sublist here ps).mem hp)).fresh here
    · rintro p q hp - ⟨seam, balks⟩ earlier first e second deferred
      have stuck := (h p ((tried_sublist here ps).mem hp)).le_of_balks balks earlier first
      obtain behind | guarded := seam
      · exact absurd (behind here earlier first) (Nat.not_lt.2 stuck)
      · exact stuck.trans_lt (guarded here e second deferred)

theorem Guarded.choice (h : ∀ p ∈ ps, p.Guarded) : (choice ps).Guarded := by
  intro here e he
  obtain ⟨p, hp, he⟩ := List.mem_flatMap.1 he
  exact h p ((tried_sublist here ps).mem hp) here e he

theorem tried_passed (ho : ∀ p ∈ ps, p.Orderly) (h : ∀ p ∈ ps, p.Sealed)
    {earlier : Option Failure} {value : T} {next : Cursor}
    (run : Parser.tryEach earlier (ps.map parser) here = .ok value next) :
    here.offset < next.offset ∧
      ∀ p ∈ tried here ps, ∀ e ∈ p.entries here, e.offset < next.offset := by
  induction ps generalizing earlier with
  | nil => cases run
  | cons p ps ih =>
    obtain ⟨first, later⟩ := List.forall_mem_cons.1 ho
    obtain ⟨closed, sealed⟩ := List.forall_mem_cons.1 h
    obtain ⟨balks, same, more⟩ | ⟨same, decides⟩ := tried_cons here p ps
    · obtain ⟨merged, next⟩ := more earlier
      obtain ⟨moved, passed⟩ := ih later sealed (next.symm.trans run)
      rw [same]
      refine ⟨moved, List.forall_mem_cons.2 ⟨fun e he => ?_, passed⟩⟩
      exact (first.le_of_balks balks e he).trans_lt moved
    · simpa [same] using closed here value next ((decides earlier).symm.trans run)

theorem Sealed.choice (ho : ∀ p ∈ ps, p.Orderly) (h : ∀ p ∈ ps, p.Sealed) :
    (choice ps).Sealed := by
  intro here value next run
  obtain ⟨moved, passed⟩ := tried_passed ho h run
  refine ⟨moved, fun e he => ?_⟩
  obtain ⟨p, hp, he⟩ := List.mem_flatMap.1 he
  exact passed p hp e he

end Choice

section Many

variable {p : Traced R T} {here place : Cursor}

theorem reaches_of_visits {p : Parser T} (h : p.Onward) {limit : Nat}
    (hv : place ∈ p.visits limit here) : here.Reaches place := by
  induction limit generalizing here with
  | zero => cases hv
  | succ limit ih =>
    rw [Parser.visits] at hv
    obtain rfl | hv := List.mem_cons.1 hv
    · exact Cursor.reaches_refl _
    · cases run : p here with
      | ok value there =>
        simp only [run] at hv
        split at hv
        · cases hv
        · exact (h.ok run).trans (ih hv)
      | fail | exhausted =>
        simp only [run] at hv
        cases hv

theorem visits_before (h : p.Orderly) {limit : Nat} {stop : Cursor}
    (came : (p.parser.repeatUpTo limit here).stop? = some stop) :
    ∀ place ∈ p.parser.visits limit here, ∀ e ∈ p.entries place, e.offset ≤ stop.offset := by
  induction limit generalizing here with
  | zero => cases came
  | succ limit ih =>
    rw [Parser.repeatUpTo] at came
    rw [Parser.visits]
    cases run : p.parser here with
    | ok value there =>
      simp only [run] at came
      have first := h.before_ok run
      split at came <;> rename_i same
      · cases came
        simpa [same] using first
      · rw [Parser.stop?_map] at came
        have passed := (h.onward.repeatUpTo limit there stop came).offset_le
        dsimp only
        rw [if_neg same]
        exact List.forall_mem_cons.2 ⟨fun e he => (first e he).trans passed, ih came⟩
    | fail failure there =>
      simp only [run] at came
      have first := h.before_fail run
      split at came <;> rename_i same
      · cases came
        simpa using first
      · cases came
        simpa [← not_not.1 same] using first
    | exhausted =>
      simp only [run] at came
      cases came

/-- Of two places that are visited, the later one is reached by the run at the earlier one. -/
theorem pairwise_visits {p : Parser T} (h : p.Onward) (limit : Nat) (here : Cursor) :
    (p.visits limit here).Pairwise fun earlier place =>
      ∃ value next, p earlier = .ok value next ∧ next.Reaches place := by
  induction limit generalizing here with
  | zero => exact .nil
  | succ limit ih =>
    rw [Parser.visits]
    cases run : p here with
    | ok value there =>
      dsimp only
      split
      · exact List.pairwise_singleton _ _
      · exact (ih there).cons fun place hv => ⟨value, there, run, reaches_of_visits h hv⟩
    | fail | exhausted => exact List.pairwise_singleton _ _

theorem Orderly.many (h : p.Orderly) (seam : p.Sealed ∨ p.Guarded) : p.many.Orderly := by
  refine ⟨h.onward.many, ?_, ?_, ?_⟩
  · intro here e he
    obtain ⟨place, hv, he⟩ := List.mem_flatMap.1 he
    exact (reaches_of_visits h.onward hv).offset_le.trans (h.after place e he)
  · intro here stop came e he
    obtain ⟨place, hv, he⟩ := List.mem_flatMap.1 he
    exact visits_before h came place hv e he
  · intro here
    refine List.pairwise_flatMap.2 ⟨fun place _ => h.fresh place, ?_⟩
    refine (pairwise_visits h.onward _ here).imp ?_
    rintro earlier place ⟨value, next, run, reached⟩ x first e second deferred
    obtain closed | guarded := seam
    · calc x.offset < next.offset := (closed earlier value next run).2 x first
        _ ≤ place.offset := reached.offset_le
        _ ≤ e.offset := h.after place e second
    · calc x.offset ≤ next.offset := h.before_ok run x first
        _ ≤ place.offset := reached.offset_le
        _ < e.offset := guarded place e second deferred

theorem Guarded.many (h : p.Guarded) (onward : p.parser.Onward) : p.many.Guarded := by
  intro here e he deferred
  obtain ⟨place, hv, he⟩ := List.mem_flatMap.1 he
  exact (reaches_of_visits onward hv).offset_le.trans_lt (h place e he deferred)

theorem Orderly.many1 (h : p.Orderly) (guarded : p.Guarded) : p.many1.Orderly :=
  h.bind (fun value => (h.many (.inr guarded)).map (value :: ·))
    (.inr fun value => (guarded.many h.onward).map h.onward.many (value :: ·))

theorem Guarded.many1 (h : p.Guarded) (onward : p.parser.Onward) : p.many1.Guarded :=
  h.bind onward fun value => (h.many onward).map onward.many (value :: ·)

end Many

section Enter

variable {p : Traced R T} (rule : R)

theorem Orderly.enter (h : p.Orderly) (guarded : p.Guarded) (deferred : Bool) :
    (enter rule deferred p).Orderly := by
  refine ⟨h.onward, fun here => ?_, fun here stop came => ?_, fun here => ?_⟩
  · exact List.forall_mem_cons.2 ⟨le_rfl, h.after here⟩
  · exact List.forall_mem_cons.2 ⟨(h.onward here stop came).offset_le, h.before here stop came⟩
  · exact List.pairwise_cons.2 ⟨guarded here, h.fresh here⟩

theorem Guarded.enter (h : p.Guarded) : (enter rule false p).Guarded :=
  fun here => List.forall_mem_cons.2 ⟨nofun, h here⟩

theorem Sealed.enter (h : p.Sealed) (deferred : Bool) : (enter rule deferred p).Sealed := by
  intro here value next run
  obtain ⟨moved, passed⟩ := h here value next run
  exact ⟨moved, List.forall_mem_cons.2 ⟨moved, passed⟩⟩

end Enter

/-! Rules between marks: the first mark is read before anything is entered, and the last one
behind all that was. -/

structure Opened (p : Traced R T) : Prop where
  orderly : p.Orderly
  behind : p.Behind
  consumes : p.parser.Consumes

structure Enclosed (p : Traced R T) : Prop where
  orderly : p.Orderly
  behind : p.Behind
  sealed : p.Sealed

section Marks

variable {p : Traced R T} {q : T → Traced R U}

theorem enclosed_read {p : Parser T} (onward : p.Onward) (consumes : p.Consumes) :
    (read p : Traced R T).Enclosed :=
  ⟨(silent_read p).orderly onward, (silent_read p).behind, (silent_read p).sealed consumes⟩

theorem enclosed_string {mark : String} (h : mark ≠ "") :
    (read (Parser.string mark) : Traced R String).Enclosed :=
  enclosed_read (Parser.onward_string mark) (Parser.consumes_string h)

theorem Enclosed.opened (h : p.Enclosed) : p.Opened :=
  ⟨h.orderly, h.behind, fun here value next run => (h.sealed here value next run).1⟩

theorem Opened.bind (hp : p.Opened) (hq : ∀ value, (q value).Orderly)
    (seam : p.Sealed ∨ ∀ value, (q value).Guarded) : (p.bind q).Opened :=
  ⟨hp.orderly.bind hq seam, hp.behind.bind hp.consumes hq,
    hp.consumes.bind fun value => (hq value).onward.forward⟩

theorem Enclosed.bind (hp : p.Enclosed) (hq : ∀ value, (q value).Orderly) : (p.bind q).Opened :=
  hp.opened.bind hq (.inl hp.sealed)

theorem Enclosed.then_silent (hp : p.Enclosed) (hq : ∀ value, (q value).Silent)
    (onward : ∀ value, (q value).parser.Onward) : (p.bind q).Enclosed := by
  have opened := hp.bind fun value => (hq value).orderly (onward value)
  exact ⟨opened.orderly, opened.behind, hp.sealed.then_silent hq onward⟩

theorem Enclosed.map (h : p.Enclosed) (f : T → U) : (p.map f).Enclosed :=
  h.then_silent (fun _ => silent_read _) fun value => Parser.onward_pure (f value)

theorem Enclosed.bind_sealed (hp : p.Enclosed) (hq : ∀ value, (q value).Orderly)
    (closes : ∀ value, (q value).Sealed) : (p.bind q).Enclosed :=
  ⟨(hp.bind hq).orderly, (hp.bind hq).behind, Sealed.of_second hp.orderly closes⟩

theorem Orderly.close (h : p.Orderly) {mark : String} (hm : mark ≠ "") :
    (p.skip (read (Parser.string mark))).Orderly :=
  h.skip (enclosed_string hm).orderly (.inr (enclosed_string hm).behind.guarded)

theorem Orderly.sealed_close (h : p.Orderly) {mark : String} (hm : mark ≠ "") :
    (p.skip (read (Parser.string mark))).Sealed :=
  .of_second h fun value => ((enclosed_string hm).map fun _ => value).sealed

theorem Opened.close (h : p.Opened) {mark : String} (hm : mark ≠ "") :
    (p.skip (read (Parser.string mark))).Enclosed :=
  have close := fun value : T => ((enclosed_string hm).map fun _ => value).orderly
  ⟨h.orderly.close hm, h.behind.bind h.consumes close, h.orderly.sealed_close hm⟩

end Marks

/-- A rule that can be entered and repeated: nothing deferred stands at its start, and all that
it enters is in front of where it stops. -/
structure Proper (p : Traced R T) : Prop where
  orderly : p.Orderly
  guarded : p.Guarded
  sealed : p.Sealed

section Proper

variable {p : Traced R T}

theorem Enclosed.enter (h : p.Enclosed) (rule : R) : (enter rule false p).Proper :=
  ⟨h.orderly.enter rule h.behind.guarded false, h.behind.guarded.enter rule,
    h.sealed.enter rule false⟩

theorem Proper.label (h : p.Proper) (expected : String) : (p.label expected).Proper :=
  ⟨h.orderly.label expected, h.guarded, h.sealed.label expected⟩

theorem Proper.choice {ps : List (Traced R T)} (h : ∀ p ∈ ps, p.Proper) : (choice ps).Proper := by
  have orderly := fun p hp => (h p hp).orderly
  have guarded := fun p hp => (h p hp).guarded
  refine ⟨Orderly.choice orderly ?_, Guarded.choice guarded,
    Sealed.choice orderly fun p hp => (h p hp).sealed⟩
  exact List.pairwise_of_forall_mem_list fun p _ q hq => .inr (guarded q hq)

variable {body : Traced R T → Traced R T}

theorem proper_unroll (h : ∀ inner, inner.Proper → (body inner).Proper) (levels : Nat) :
    (unroll body levels).Proper := by
  induction levels with
  | zero => exact ⟨⟨nofun, nofun, nofun, fun _ => .nil⟩, nofun, nofun⟩
  | succ levels ih => exact h _ ih

theorem proper_fix (h : ∀ inner, inner.Proper → (body inner).Proper) : (fix body).Proper := by
  have levels (here : Cursor) := proper_unroll h (here.rest.length + 1)
  refine ⟨⟨?_, ?_, ?_, ?_⟩, ?_, ?_⟩
  · exact fun here => (levels here).orderly.onward here
  · exact fun here => (levels here).orderly.after here
  · exact fun here => (levels here).orderly.before here
  · exact fun here => (levels here).orderly.fresh here
  · exact fun here => (levels here).guarded here
  · exact fun here => (levels here).sealed here

end Proper

end Traced

end ParticlePatterns.Parsing
