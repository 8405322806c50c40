import ParticlePatterns.Proofs.Term.Repairs

/-!
# Failures stand behind what can be repaired

Every rule mends what its terms mend: where it fails behind its first character, what it went
over is the start of a text that it reads. The levels of the recursion carry this to all terms,
so that a program is rejected no further on than where it could still have become one.
-/

set_option autoImplicit false

namespace ParticlePatterns

namespace Grammar

open Parsing (Cursor Cut Failure Greedy Outcome Reading bytesOf)
open Parsing.Parser
open Token (Blank LineBlank)

variable {ν : Type} [Numeral ν]

section Marks

variable {T : Type} {here stop next : Cursor} {failure : Failure}

/-- What can fail behind an opening mark and filler is what comes there. -/
theorem marked_fail {mark : String} {q : Parsing.Parser T}
    (h : (((string mark).andThen filler).andThen q) here = .fail failure stop) :
    failure.offset = here.offset ∨ ∃ opened inside text,
      here.rest = mark.toList ++ opened.rest ∧
      opened.offset = here.offset + bytesOf mark.toList ∧
      filler opened = .ok text inside ∧ q inside = .fail failure stop := by
  obtain failed | ⟨text, inside, run, failed⟩ := bind_fail h
  · obtain failed | ⟨_, opened, _, failed⟩ := bind_fail failed
    · exact .inl (string_fail failed).1
    · exact absurd failed (skips_filler.not_fail failure stop)
  · obtain ⟨_, opened, open_run, fill_run⟩ := bind_ok run
    obtain ⟨split, size⟩ := string_ok open_run
    exact .inr ⟨opened, inside, text, split, size, fill_run, failed⟩

/-- In front of a closing mark it fails as far as the rest got. -/
theorem reach_of_closed {mark : String} {p : Parsing.Parser T}
    (h : (p.skip (string mark)) here = .fail failure stop) : failure.offset ∈ (p here).reach := by
  obtain failed | ⟨value, next, run, failed⟩ := skip_fail h
  · rw [failed]
    rfl
  · rw [run, (string_fail failed).1]
    rfl

end Marks

section Shapes

def Brace (after : List Char) : Prop :=
  ∃ rest, after = '\x7d' :: rest

theorem Brace.clear {after : List Char} (h : Brace after) : Clear after := by
  obtain ⟨rest, rfl⟩ := h
  exact closes_block.clear rest

def RangeFrom (ν : Type) [Numeral ν] : Reading (Term ν × Term ν) :=
  fun here rest bounds => ∃ there, Padded Blank Derives here ('.' :: '.' :: there) bounds.1 ∧
    Led Blank (Padded Blank Derives) there rest bounds.2

def Tracks (ν : Type) [Numeral ν] : Reading (Program ν × List (Program ν)) :=
  fun here rest tracks => ∃ there, ProgramRule Derives here there tracks.1 ∧
    Greedy (TrackRule Derives) there rest tracks.2

theorem opens_track {here : Cursor} {offset : Nat}
    (h : Opens Clear (ProgramRule (ν := ν) Derives) here offset) :
    Opens Brace (Tracks ν) here offset := by
  refine h.mono (fun _ => Brace.clear) ?_
  rintro there _ p ⟨rest, rfl⟩ read
  exact ⟨(p, []), _, read, .stop fun _ _ ⟨_, same, _⟩ => by cases same⟩

end Shapes

section Rules

variable {inner : Parsing.Parser (Term ν)} {n : Nat} {here : Cursor}

structure MendedTerms (inner : Parsing.Parser (Term ν)) (n : Nat) : Prop where
  repeats : Repeats (Stuck ν) inner Derives n
  mends : ∀ here : Cursor, here.rest.length < n → Mends (Derives (ν := ν)) inner here

theorem MendedTerms.repairable (hi : MendedTerms inner n) {fp : Parsing.Parser String}
    {fill : List Char → List Char → Prop} : Repairable ν inner fp fill Derives n :=
  ⟨hi.repeats, starts_derives, hi.mends, fun _ _ read _ cut _ => derives_survives read cut⟩

variable (hi : MendedTerms inner n)

include hi

theorem mends_statementOf (hl : here.rest.length < n) :
    Mends (StatementRule Derives) (statementOf inner) here := by
  have statement : ∀ {offset}, Opens Line (Several LineBlank (Derives (ν := ν))) here offset →
      Opens Line (StatementRule (ν := ν) Derives) here offset := by
    intro offset opens
    refine opens.mono (fun _ => id) ?_
    rintro here _ ts ⟨rest, rfl⟩ ⟨line, some⟩
    obtain ⟨t, ts, rfl⟩ := List.exists_cons_of_ne_nil some
    refine statement_of_line line (.stop ?_)
    rintro last mark ⟨_, ⟨same, _⟩, _⟩
    cases same
  intro failure stop run
  obtain failed | ⟨_, there, _, failed⟩ := skip_fail (map_fail run)
  · obtain failed | ⟨t, next, first, failed⟩ := bind_fail failed
    · obtain failed | ⟨_, _, _, failed⟩ := skip_fail failed
      · exact (hi.mends here hl failure stop failed).imp_right fun opens =>
          statement (filling_line.opens_item starts_derives opens)
      · exact absurd failed (skips_lineFiller.not_fail failure stop)
    · -- the first term was read, and one behind it fails
      have shorter := shrinks_padded length_le_of_lineBlank shrinks_derives _ _ _
        (hi.repairable.of_ok filling_line hl first).2
      have reached : failure.offset ∈ (many (inner.skip lineFiller) next).reach := by
        rw [map_fail failed]
        rfl
      have opens := hi.repairable.opens_many filling_line (shorter.trans hl) _ reached
      exact .inr (statement (hi.repairable.opens_next filling_line hl first
        (free_of_repeatUpTo reached) opens))
  · obtain ⟨there, failed, moved⟩ := item_of_repeatUpTo_fail failed
    obtain failed | ⟨_, _, _, failed⟩ := skip_fail failed
    · exact absurd (by rw [(string_fail failed).2]) moved
    · exact absurd failed (skips_lineFiller.not_fail failure stop)

/-- Right behind a statement without a semicolon no term starts that the parser would not have
taken for the statement. -/
theorem balks_behind (hl : here.rest.length < n) {t : Term ν} {ts : List (Term ν)} {next : Cursor}
    (run : ((statementOf inner).skip filler) here = .ok t next)
    (line : Several LineBlank Derives here.rest next.rest ts) :
    ((statementOf inner).skip filler).Balks next := by
  have items := skips_lineFiller.repeats hi.repeats
  obtain ⟨⟨b, moved⟩, _⟩ :=
    ((skips_filler.repeats (repeats_statementOf hi.repeats)).settles here hl).of_ok run
  obtain ⟨_, _, run, _⟩ := skip_ok run
  obtain ⟨_, run, _⟩ := map_ok run
  obtain ⟨there, _, terms, _⟩ := skip_ok run
  obtain ⟨⟨a, reached⟩, unique⟩ := (items.many1 hl).unique_of_ok terms
  have same : there = next := by
    rw [reached, moved]
    refine Cursor.advance_eq_of_rest ?_
    rw [← reached, ← moved, (unique _ _ line).1]
  obtain ⟨_, first, start, more⟩ := bind_ok terms
  obtain ⟨_, more, _⟩ := map_ok more
  have shorter := items.shrinks _ _ _ ((items.settles here hl).of_ok start).2
  have balks : (inner.skip lineFiller).Balks there := by
    have moves : ∀ {c value next}, c.rest.length < n → (inner.skip lineFiller) c = .ok value next →
        next.rest.length < n ∧ next.offset ≠ c.offset := by
      intro c value next within run
      obtain ⟨⟨m, rfl⟩, read⟩ := (items.settles c within).of_ok run
      have shorter := items.shrinks _ _ _ read
      exact ⟨shorter.trans within, (c.offset_lt_of_shorter shorter).ne'⟩
    exact balks_of_repeatUpTo moves (shorter.trans hl) more
  rw [same] at balks
  exact balks_bind (balks_bind (balks_bind (balks_bind balks _) _) _) _

theorem repairable_statements :
    Repairable ν (statementOf inner) filler Blank (StatementRule Derives) n := by
  refine ⟨repeats_statementOf hi.repeats, starts_statementRule starts_derives,
    fun here => mends_statementOf hi, ?_⟩
  intro here next t there lost line there' hl run read filled cut free
  refine statement_survives survives_derives starts_derives read cut ?_
  rintro ts terms ⟨last, u, behind⟩
  obtain ⟨c, tail, rfl, starts⟩ := starts_derives _ _ _ behind
  have newline : c ≠ '\n' := by
    rintro rfl
    exact absurd starts (by decide)
  obtain ⟨tail, rfl⟩ := List.head?_eq_some_iff.1 (cut.head rfl newline)
  have same := skips_filler.clear c _ _ starts filled
  obtain rfl | moves := free
  · rw [same] at cut
    cases cut.unique Cut.start
    exact absurd rfl newline
  · exact absurd (balks_behind hi hl run (same ▸ terms)) moves

/-- A program, up to where it fails or ends. -/
theorem opens_programOf (hl : here.rest.length < n) :
    ∀ offset ∈ (programOf inner here).reach,
      Opens Clear (ProgramRule (ν := ν) Derives) here offset := by
  intro offset ho
  obtain ⟨failure, stop, failed, _⟩ | ⟨text, next, run, more⟩ := mem_reach_bind
    (show offset ∈ (filler.bind (fun _ => many ((statementOf inner).skip filler)) here).reach
      from ho)
  · exact absurd failed (skips_filler.not_fail failure stop)
  · have shorter := length_le_of_blank (skips_filler.of_ok run).2
    exact opens_led filling_blank run
      ((repairable_statements hi).opens_many filling_blank (shorter.trans_lt hl) offset more)

theorem mends_listOf (hl : here.rest.length ≤ n) :
    Mends (ListRule Derives) (listOf inner) here := by
  intro failure stop run
  have failed := map_fail run
  rw [andThen_skip] at failed
  obtain same | ⟨opened, inside, text, split, size, filled, failed⟩ := marked_fail failed
  · exact .inl same
  · have within : opened.rest.length < n := by
      rw [split] at hl
      simp at hl
      omega
    have shorter := length_le_of_blank (skips_filler.of_ok filled).2
    have row := hi.repairable.opens_many filling_blank (shorter.trans_lt within) _
      (reach_of_closed failed)
    have whole : Opens Line (Reading.before (Row (Derives (ν := ν))) [')']) opened
        failure.offset :=
      (opens_led filling_blank filled row).closed [')'] fun after _ => closes_list.clear after
    exact .inr (whole.marked split size fun {there after ts} read =>
      ⟨.list ts, there, ts, rfl, read, rfl⟩)

/-- One term, up to where it fails or the filler behind it ends. Where there is none it is made
up. -/
theorem opens_padded_term (hl : here.rest.length < n) :
    ∀ offset ∈ ((inner.skip filler) here).reach,
      Opens Clear (Led Blank (Padded Blank (Derives (ν := ν)))) here offset := by
  intro offset ho
  have led : ∀ {offset}, Opens Clear (Padded Blank (Derives (ν := ν))) here offset →
      Opens Clear (Led Blank (Padded Blank (Derives (ν := ν)))) here offset := by
    refine fun opens => opens.mono (fun _ => id) fun {_ _ v} _ read => ⟨v, _, ?_, read⟩
    obtain ⟨there, read, _⟩ := read
    obtain ⟨c, tail, rfl, starts⟩ := starts_derives _ _ _ read
    exact skips_filler.self (c := c) rfl starts
  cases run : (inner.skip filler) here with
  | ok t next =>
    rw [run] at ho
    cases ho
    exact led (hi.repairable.opens_last filling_blank hl run)
  | exhausted =>
    rw [run] at ho
    cases ho
  | fail failure stop =>
    rw [run] at ho
    cases ho
    obtain failed | ⟨_, _, _, failed⟩ := skip_fail run
    · obtain same | opens := hi.mends here hl failure stop failed
      · rw [same]
        refine opens_here ['\n', '(', ')'] fun after clear => ?_
        have empty : Derives (ν := ν) ('(' :: ')' :: after) after (.list []) := by
          refine derives_iff.2 (.list ⟨')' :: after, [], rfl, ?_, rfl⟩)
          exact row_nil starts_derives (closes_list.clear after)
        exact ⟨'(' :: ')' :: after, .list [], rfl, _, blank_newline (by simp +decide), after,
          empty, blank_self fun c hc => (clear c hc).1⟩
      · exact led (filling_blank.opens_padded opens)
    · exact absurd failed (skips_filler.not_fail failure stop)

/-- A range behind its first bound, up to where it fails. -/
theorem opens_rangeOf (hl : here.rest.length ≤ n) (shape : Bracket) (first : Term ν)
    {failure : Failure} {stop : Cursor}
    (run : rangeOf inner shape first here = .fail failure stop) :
    failure.offset = here.offset ∨
      Opens Clear (Reading.after ['.', '.'] (Led Blank (Padded Blank (Derives (ν := ν))))) here
        failure.offset := by
  have failed := map_fail run
  rw [andThen_skip, andThen_skip] at failed
  obtain same | ⟨opened, inside, text, split, size, filled, failed⟩ := marked_fail failed
  · exact .inl same
  · have within : opened.rest.length < n := by
      rw [split] at hl
      simp at hl
      omega
    have shorter := length_le_of_blank (skips_filler.of_ok filled).2
    have term := opens_padded_term hi (shorter.trans_lt within) _ (reach_of_closed failed)
    exact .inr ((opens_led filling_blank filled term).marked split size fun {there after v} read =>
      ⟨v, there, rfl, read⟩)

/-- Behind an opening bracket a row of terms or a range has begun. -/
theorem opens_inside (hl : here.rest.length < n) {shape : Bracket} {failure : Failure}
    {stop : Cursor} (run : choice [(string shape.right).map fun _ => .symbol shape.angle,
      (inner.skip filler).bind fun first => choice
        [rangeOf inner shape first, choiceOf inner shape first]] here = .fail failure stop) :
    Opens Clear (Row (Derives (ν := ν))) here failure.offset ∨
      Opens Clear (Led Blank (RangeFrom ν)) here failure.offset := by
  have nothing : ∀ {here : Cursor}, Opens Clear (Row (Derives (ν := ν))) here here.offset :=
    filling_blank.opens_here starts_derives
  have row : ∀ {offset}, Opens Clear (Several Blank (Derives (ν := ν))) here offset →
      Opens Clear (Row (Derives (ν := ν))) here offset :=
    fun opens => opens.mono (fun _ => id) fun _ read => ⟨_, read.led skips_filler starts_derives⟩
  obtain same | ⟨_, ⟨⟩, _⟩ | ⟨p, hp, other, there, failed, same⟩ := tryEach_fail run
  · rw [same]
    exact .inl nothing
  rw [same]
  obtain rfl | rfl : p = _ ∨ p = _ := by simpa using hp
  · rw [(string_fail (map_fail failed)).1]
    exact .inl nothing
  obtain failed | ⟨first, next, read, failed⟩ := bind_fail failed
  · obtain failed | ⟨_, _, _, failed⟩ := skip_fail failed
    · obtain same | opens := hi.mends here hl other there failed
      · rw [same]
        exact .inl nothing
      · exact .inl (row (filling_blank.opens_item starts_derives opens))
    · exact absurd failed (skips_filler.not_fail other there)
  -- the first term was read: the rest fails, as a range or as further terms
  obtain ⟨⟨m, moved⟩, padded⟩ := hi.repairable.of_ok filling_blank hl read
  have shorter := shrinks_padded length_le_of_blank shrinks_derives _ _ _ padded
  have more : ∀ {offset}, offset = next.offset ∨ ¬(inner.skip filler).Balks next →
      Opens Clear (Row (Derives (ν := ν))) next offset →
      Opens Clear (Row (Derives (ν := ν))) here offset :=
    fun free opens => row (hi.repairable.opens_next filling_blank hl read free opens)
  obtain same | ⟨_, ⟨⟩, _⟩ | ⟨q, hq, last, there, failed, same⟩ := tryEach_fail failed
  · rw [same]
    exact .inl (more (.inl rfl) nothing)
  rw [same]
  obtain rfl | rfl : q = _ ∨ q = _ := by simpa using hq
  · obtain same | opens := opens_rangeOf hi (shorter.le.trans hl.le) shape first failed
    · rw [same]
      exact .inl (more (.inl rfl) nothing)
    · subst moved
      obtain ⟨passed, split, size⟩ := here.advance_passes m
      refine .inr (opens.shift split size fun _ cut behind => ?_)
      obtain ⟨there, rfl, last⟩ := behind
      obtain ⟨here', cut, low, self⟩ :=
        padded_survives survives_derives starts_derives padded cut (by simp +decide)
      exact ⟨here', (first, _), cut, here', self, there, low, last⟩
  · have reached := reach_of_closed (map_fail failed)
    exact .inl (more (free_of_repeatUpTo reached)
      (hi.repairable.opens_many filling_blank (shorter.trans hl) _ reached))

theorem mends_bracketOf {shape : Bracket} {left right : Char} (hb : Brackets shape left right)
    (hl : here.rest.length ≤ n) :
    Mends (BracketRule (ν := ν) Derives shape left right) (bracketOf inner shape) here := by
  intro failure stop run
  obtain same | ⟨opened, inside, text, split, size, filled, failed⟩ := marked_fail run
  · exact .inl same
  rw [hb.left_eq] at split size
  have within : opened.rest.length < n := by
    rw [split] at hl
    simp at hl
    omega
  have shorter := length_le_of_blank (skips_filler.of_ok filled).2
  have ends : ∀ after, Line after → Clear ([right] ++ after) :=
    fun after _ => hb.closes.clear after
  obtain row | range := opens_inside hi (shorter.trans_lt within) failed
  · have whole := (opens_led filling_blank filled row).closed [right] ends
    refine .inr (whole.marked split size ?_)
    rintro there after ts ⟨start, blank, terms⟩
    cases terms with
    | stop _ => exact ⟨_, .angle blank⟩
    | more first others => exact ⟨_, .choice blank first others⟩
  · have whole := (opens_led filling_blank filled range).closed [right] ends
    refine .inr (whole.marked split size ?_)
    rintro there after ⟨low, high⟩ ⟨start, blank, behind, first, last⟩
    exact ⟨_, .range blank first last⟩

/-- One more track in front. -/
theorem opens_next_track (hl : here.rest.length < n) {next opened : Cursor} {first : Program ν}
    {offset : Nat} (run : programOf inner here = .ok first next)
    (split : next.rest = '|' :: opened.rest)
    (size : opened.offset = next.offset + bytesOf ['|'])
    (h : Opens Brace (Tracks ν) opened offset) : Opens Brace (Tracks ν) here offset := by
  obtain ⟨⟨m, rfl⟩, read⟩ := (settles_programOf hi.repeats hl).of_ok run
  obtain ⟨passed, split', size'⟩ := here.advance_passes m
  have whole : here.rest = (passed ++ ['|']) ++ opened.rest := by
    rw [split', split]
    simp
  have far : opened.offset = here.offset + bytesOf (passed ++ ['|']) := by
    rw [Parsing.bytesOf_append]
    omega
  refine h.shift whole far fun _ cut more => ?_
  obtain ⟨there, second, others⟩ := more
  have bar := cut.cons '|'
  rw [← split] at bar
  obtain ⟨here', cut, read⟩ := programRule_survives survives_derives starts_derives
    shrinks_derives read bar (closes_track.clear _)
  exact ⟨here', (first, _ :: _), cut, _, read, .more ⟨_, rfl, second⟩ others⟩

/-- The tracks of a block, up to where one fails or the last ends. -/
theorem opens_tracks (limit : Nat) (hl : here.rest.length < n) {next : Cursor} {first : Program ν}
    (run : programOf inner here = .ok first next) (room : next.rest.length < limit) :
    ∀ offset ∈
      (repeatUpTo ((string "|").andThen ((programOf inner).map Term.list)) limit next).reach,
      Opens Brace (Tracks ν) here offset := by
  induction limit generalizing here next first with
  | zero => exact absurd room (Nat.not_lt_zero _)
  | succ limit ih =>
    intro offset ho
    have last : Opens Brace (Tracks ν) here next.offset :=
      opens_track (opens_programOf hi hl _ (by rw [run]; rfl))
    rw [repeatUpTo] at ho
    obtain ⟨⟨m, moved⟩, read⟩ := (settles_programOf hi.repeats hl).of_ok run
    have shorter := length_le_of_programRule shrinks_derives read
    cases track : ((string "|").andThen ((programOf inner).map Term.list)) next with
    | exhausted =>
      simp only [track] at ho
      cases ho
    | fail failure stop =>
      simp only [track] at ho
      split at ho
      · cases ho
        obtain failed | ⟨_, opened, bar, failed⟩ := bind_fail track
        · rw [(string_fail failed).1]
          exact last
        · obtain ⟨split, size⟩ := string_ok bar
          have within : opened.rest.length < n := by
            have := congrArg List.length split
            simp at this
            omega
          refine opens_next_track hi hl run split size (opens_track ?_)
          exact opens_programOf hi within _ (by rw [map_fail failed]; rfl)
      · cases ho
        exact last
    | ok t further =>
      obtain ⟨_, opened, bar, second⟩ := bind_ok track
      obtain ⟨split, size⟩ := string_ok bar
      obtain ⟨p, second, _⟩ := map_ok second
      have length := congrArg List.length split
      simp at length
      have within : opened.rest.length < n := by omega
      obtain ⟨⟨k, reached⟩, track_read⟩ := (settles_programOf hi.repeats within).of_ok second
      have still := length_le_of_programRule shrinks_derives track_read
      have passed : further.offset ≠ next.offset := by
        have := opened.offset_le_advance k
        have mark : 0 < bytesOf "|".toList := by decide
        rw [← reached, size] at this
        omega
      simp only [track, if_neg passed, reach_map] at ho
      exact opens_next_track hi hl run split size (ih within second (by omega) offset ho)

theorem mends_blockOf (hl : here.rest.length ≤ n) :
    Mends (BlockRule (ν := ν) Derives) (blockOf inner) here := by
  have block : ∀ {opened : Cursor} {offset : Nat}, here.rest = '\x7b' :: opened.rest →
      opened.offset = here.offset + bytesOf ['\x7b'] → Opens Brace (Tracks ν) opened offset →
      Opens Line (BlockRule (ν := ν) Derives) here offset := by
    intro opened offset split size opens
    have whole : Opens Line ((Tracks ν).before ['\x7d']) opened offset :=
      opens.closed ['\x7d'] fun after _ => ⟨after, rfl⟩
    have marked : here.rest = ['\x7b'] ++ opened.rest := split
    refine whole.marked marked size ?_
    rintro there after ⟨first, others⟩ ⟨m, track, more⟩
    exact ⟨_, there, m, first, others, rfl, track, more, rfl⟩
  have shorter : ∀ {opened : Cursor}, here.rest = '\x7b' :: opened.rest →
      opened.rest.length < n := by
    intro opened split
    rw [split] at hl
    exact hl
  intro failure stop run
  obtain ⟨other, there, failed, same⟩ | ⟨first, next, opening, more⟩ :=
    mem_reach_bind (reach_of_closed run)
  · obtain failed | ⟨_, opened, brace, failed⟩ := bind_fail failed
    · exact .inl (same.trans (string_fail failed).1)
    · obtain ⟨split, size⟩ := string_ok brace
      refine .inr (block split size (opens_track ?_))
      exact opens_programOf hi (shorter split) _ (by rw [map_fail failed, same]; rfl)
  · obtain ⟨_, opened, brace, track⟩ := bind_ok opening
    obtain ⟨split, size⟩ := string_ok brace
    obtain ⟨p, track, _⟩ := map_ok track
    rw [reach_map] at more
    exact .inr (block split size
      (opens_tracks hi _ (shorter split) track (Nat.lt_succ_self _) _ more))

omit hi in
theorem offset_of_number_fail {failure : Failure} {stop : Cursor}
    (run : (number : Parsing.Parser (Term ν)) here = .fail failure stop) :
    failure.offset = here.offset := by
  unfold number at run
  cases token : pattern Token.number "number" here with
  | ok text next =>
    simp only [token] at run
    split at run
    · cases run
    · cases run
      rfl
  | fail other there =>
    simp only [token] at run
    cases run
    exact pattern_fail token
  | exhausted =>
    simp only [token] at run
    cases run

theorem mends_termOf (hl : here.rest.length ≤ n) :
    Mends (Derives (ν := ν)) (termOf inner) here := by
  have rule : ∀ {r : Reading (Term ν)} {offset : Nat},
      (∀ {a b u}, r a b u → TermRule Derives a b u) →
      offset = here.offset ∨ Opens Line r here offset →
      offset = here.offset ∨ Opens Line (Derives (ν := ν)) here offset :=
    fun hr => Or.imp_right fun opens =>
      opens.mono (fun _ => id) fun _ read => ⟨_, derives_iff.2 (hr read)⟩
  intro failure stop run
  obtain ⟨other, run, same⟩ := label_fail run
  rw [same]
  obtain same | ⟨_, ⟨⟩, _⟩ | ⟨p, hp, last, there, failed, same⟩ := tryEach_fail run
  · exact .inl same
  rw [same]
  obtain rfl | rfl | rfl | rfl | rfl | rfl :
      p = _ ∨ p = _ ∨ p = _ ∨ p = _ ∨ p = _ ∨ p = _ := by simpa using hp
  · exact .inl (offset_of_number_fail failed)
  · exact .inl (pattern_fail (map_fail failed))
  · exact rule .list (mends_listOf hi hl last there failed)
  · exact rule .each (mends_bracketOf hi brackets_each hl last there failed)
  · exact rule .random (mends_bracketOf hi brackets_random hl last there failed)
  · exact rule .block (mends_blockOf hi hl last there failed)

end Rules

/-- With levels enough for the text. -/
theorem mended_unroll (levels : Nat) :
    MendedTerms (unroll termOf levels : Parsing.Parser (Term ν)) levels := by
  refine ⟨repeats_unroll levels, ?_⟩
  induction levels with
  | zero => exact fun _ hl => absurd hl (Nat.not_lt_zero _)
  | succ levels ih =>
    exact fun here hl => mends_termOf ⟨repeats_unroll levels, ih⟩ (Nat.le_of_lt_succ hl)

theorem mended_term (n : Nat) : MendedTerms (term : Parsing.Parser (Term ν)) n := by
  refine ⟨repeats_term n, fun here _ => ?_⟩
  have levels : (term : Parsing.Parser (Term ν)) here =
      unroll termOf (here.rest.length + 1) here := by
    rw [term, fix]
  rw [Mends, levels]
  exact (mended_unroll (here.rest.length + 1)).mends here (Nat.lt_succ_self _)

theorem programRule_of_parse_error {text : String} {failure : Failure}
    (h : (Program.parse text : Except Failure (Program ν)) = .error failure) :
    ∃ taken lost more p, text.toList = taken ++ lost ∧ failure.offset = bytesOf taken ∧
      ProgramRule (ν := ν) Derives (taken ++ more) [] p := by
  have settled := settles_wholeProgram (ν := ν) (Cursor.ofText text.toList)
  unfold Program.parse Parsing.Parser.parse at h
  cases run : (wholeProgram : Parsing.Parser (Program ν)) (Cursor.ofText text.toList) with
  | ok p next =>
    simp only [run] at h
    cases h
  | exhausted =>
    rw [Parsing.Parser.Settles, run] at settled
    cases settled
  | fail other stop =>
    simp only [run] at h
    cases h
    have reached : failure.offset ∈
        (programOf (term (ν := ν)) (Cursor.ofText text.toList)).reach := by
      obtain failed | ⟨p, next, run, failed⟩ := skip_fail run
      · rw [show programOf term _ = _ from failed]
        rfl
      · rw [show programOf term _ = _ from run, eof_fail failed]
        rfl
    obtain ⟨taken, lost, repair, split, size, opens⟩ :=
      opens_programOf (mended_term _) (Nat.lt_succ_self _) _ reached
    obtain ⟨line, p, _, read⟩ := opens [] (by simp [Clear])
    exact ⟨taken, lost, '\n' :: line, p, split, size.trans (Nat.zero_add _), read⟩

end Grammar

/-- A text that is no program is rejected at an offset up to which it still could become one:
what comes before, which is a part of the text, is the start of some program. -/
theorem error_behind_viable {ν : Type} [Numeral ν] (text : String) (failure : Parsing.Failure)
    (h : (Program.parse text : Except Parsing.Failure (Program ν)) = .error failure) :
    ∃ before after : String, text = before ++ after ∧ before.utf8ByteSize = failure.offset ∧
      ∃ (more : String) (p : Program ν), Program.parse (before ++ more) = .ok p := by
  obtain ⟨taken, lost, more, p, split, size, derived⟩ := Grammar.programRule_of_parse_error h
  refine ⟨.ofList taken, .ofList lost, ?_, size.symm, .ofList more, p, ?_⟩
  · rw [← String.toList_inj]
    simpa using split
  · refine (Parsing.Parser.parse_eq_ok_iff (Grammar.settles_wholeProgram _) ?_).2 ⟨[], ?_, rfl⟩
    · rintro _ _ ⟨_, rfl⟩
      exact Grammar.not_stuck_nil
    · simpa using derived

/-- In the second bound of a range, inside a block, behind a comment. -/
theorem error_behind_viable_range :
    let text := "\x7ba [1 .. (2 /*\u00e9*/ \u00e9"
    let failure : Parsing.Failure := ⟨1, 19, 19, "\")\""⟩
    (Program.parse text : Except Parsing.Failure (Program Int)) = .error failure ∧
      ∃ before after : String, text = before ++ after ∧ before.utf8ByteSize = 19 ∧
        ∃ (more : String) (p : Program Int), Program.parse (before ++ more) = .ok p := by
  intro text failure
  have fails : (Program.parse text : Except Parsing.Failure (Program Int)) = .error failure :=
    Parsing.Parser.eq_error (by decide +kernel)
  exact ⟨fails, error_behind_viable text failure fails⟩

end ParticlePatterns
