import Daybook.Proofs.Store.Latest
import Daybook.Proofs.Store.Tags

/-!
# Paused work

Work to go on with is looked for twice over: in the store, by a question to its rows and to the
table of tags in which a field that is not asked for is a missing value, and among the sessions,
by what a filter admits. Both find the same session, the last one in the order by start and
number, as long as all moments are in years of four digits, whose texts are in the order of the
moments.

* `filter_asksForPaused` : which rows the question is answered with yes for.
* `pausedByQuestion_eq` : the question finds what the store finds.
* `latestPaused_greatest` : the session that is found, and when there is none.
-/

namespace Daybook

/-! ## Answers that may be unknown -/

/-- An answer to a question about values that can be missing: yes, no, or not known. -/
abbrev Answer := Option Bool

namespace Answer

/-- Whether two values are the same, which is not known when one of them is missing. -/
def same (a b : Option String) : Answer :=
  match a, b with
  | some x, some y => some (x == y)
  | _, _ => none

/-- Whether one of two things is so; for a yes it is enough to know of one that it is. -/
def either : Answer → Answer → Answer
  | some true, _ => some true
  | _, some true => some true
  | some false, some false => some false
  | _, _ => none

/-- Whether two things are so; for a no it is enough to know of one that it is not. -/
def both : Answer → Answer → Answer
  | some false, _ => some false
  | _, some false => some false
  | some true, some true => some true
  | _, _ => none

@[simp]
theorem same_eq_yes_iff {a b : Option String} : same a b = some true ↔ a.isSome ∧ a = b := by
  cases a with
  | none => simp [same]
  | some x =>
    cases b with
    | none => simp [same]
    | some y => simp [same]

@[simp]
theorem either_eq_yes_iff {a b : Answer} : either a b = some true ↔ a = some true ∨ b = some true := by
  unfold either
  split <;> simp_all

@[simp]
theorem both_eq_yes_iff {a b : Answer} : both a b = some true ↔ a = some true ∧ b = some true := by
  unfold both
  split <;> simp_all

end Answer

/-! ## Rows that were written for sessions -/

/-- The row was written for a session. -/
def Row.IsRecorded (r : Row) : Prop :=
  ∃ session : Session, r = session.row

/-- The texts of the start and of the end are those of moments in years of four digits. -/
def Row.InYears (r : Row) : Prop :=
  ∃ start stop, IsWithinYears start stop ∧ r.start = storedText start ∧
    r.stop = stop.map storedText

/-- A row with moments in years of four digits was written for a session with such moments. -/
theorem Row.IsRecorded.exists_session {r : Row} (h : r.IsRecorded) (hyears : r.InYears) :
    ∃ session : Session, IsWithinYears session.start session.stop ∧ r = session.row := by
  obtain ⟨session, rfl⟩ := h
  obtain ⟨start, stop, hwithin, hstart, hstop⟩ := hyears
  refine ⟨{ session with start, stop }, hwithin, ?_⟩
  simp only [Session.row] at hstart hstop ⊢
  rw [hstart, hstop]

namespace Store

/-- Every row of a store that operations reach was written for a session. -/
theorem isRecorded_after (operations : List Operation) :
    ∀ r ∈ (after operations).rows, r.IsRecorded := by
  refine forall_rows_after (fun id n => ⟨numbered id n, rfl⟩) ?_ ?_ operations
  · rintro id tag _ ⟨session, rfl⟩
    unfold tagged
    split
    · exact ⟨{ session with tags := session.tags ++ [tag] }, rfl⟩
    · exact ⟨session, rfl⟩
  · rintro gone _ ⟨session, rfl⟩
    unfold unlink
    split
    · exact ⟨{ session with continues := none }, rfl⟩
    · exact ⟨session, rfl⟩

/-! ## The question for paused work -/

/-- Whether a row has the value that is asked for, if one is. -/
def asksFor (wanted value : Option String) : Answer :=
  .either (some wanted.isNone) (.same value wanted)

/-- There is a row in the table of tags with the session and the tag. -/
def hasTag (table : TagRows) (id : SessionId) (tag : Option String) : Bool :=
  table.any fun row => Answer.both (some (row.session == id)) (.same (some row.tag) tag) = some true

/-- Whether a row is for paused work with the fields that are asked for. -/
def asksForPaused (table : TagRows) (f : Filter) (r : Row) : Answer :=
  .both (.same (some r.state) (some "paused")) <|
    .both (asksFor f.description (some r.description)) <|
      .both (asksFor f.project r.project) <|
        .either (some f.tag.isNone) (some (hasTag table r.id f.tag))

/-- The session of the first row that the question is answered with yes for, the last start and
then the last number first. Its tags are read from the table. -/
def pausedByQuestion (s : Store) (table : TagRows) (f : Filter) :
    Except StoreError (Option Session) :=
  match (byStartDescending (s.rows.filter fun r => asksForPaused table f r = some true)).head? with
  | none => .ok none
  | some r => do
    let session ← { r with tags := table.tagsOf r.id }.session
    .ok (some session)

theorem asksFor_eq_yes_iff {wanted value : Option String} :
    asksFor wanted value = some true ↔ wanted.all (fun x => value == some x) = true := by
  cases wanted with
  | none => simp [asksFor]
  | some x =>
    cases value with
    | none => simp [asksFor]
    | some y => simp [asksFor]

variable {operations : List Operation} {f : Filter} {r : Row}

/-- A stored session has a tag when a row of the table says so. -/
theorem hasTag_tagTable_iff (hr : r ∈ (after operations).rows) {tag : String} :
    hasTag (tagTable operations) r.id (some tag) = true ↔ tag ∈ r.tags := by
  rw [← (holds_tagTable hr).tags, List.mem_map, hasTag, List.any_eq_true]
  refine exists_congr fun row => ?_
  simp [TagRows.rowsOf, and_assoc]

/-- The rows of paused work that a filter admits. -/
def pausedRows (s : Store) (f : Filter) : List Row :=
  s.rows.filter fun r =>
    r.state == State.paused.word && f.admits r.description r.project r.tags

theorem mem_pausedRows_iff {s : Store} : r ∈ s.pausedRows f ↔
    r ∈ s.rows ∧ r.state = State.paused.word ∧
      f.admits r.description r.project r.tags = true := by
  rw [pausedRows, List.mem_filter, Bool.and_eq_true, beq_iff_eq]

theorem increasing_pausedRows {s : Store} (ho : s.Ordered) (f : Filter) :
    (s.pausedRows f).Pairwise fun a b => a.id.value < b.id.value :=
  ho.increasing.filter _

theorem latestPaused_of_none {s : Store} (h : (byStart (s.pausedRows f)).getLast? = none) :
    s.latestPaused f = .ok none := by
  unfold pausedRows at h
  simp only [latestPaused, h]

theorem latestPaused_of_some {s : Store} (h : (byStart (s.pausedRows f)).getLast? = some r) :
    s.latestPaused f = r.session >>= fun session => .ok (some session) := by
  unfold pausedRows at h
  simp only [latestPaused, h]

/-- The question is answered with yes for the paused sessions that the filter admits. -/
theorem filter_asksForPaused (operations : List Operation) (f : Filter) :
    ((after operations).rows.filter fun r =>
        asksForPaused (tagTable operations) f r = some true) =
      (after operations).pausedRows f := by
  refine List.filter_congr fun r hr => ?_
  have hdescription : asksFor f.description (some r.description) = some true ↔
      f.description.all (· == r.description) = true := by
    rw [asksFor_eq_yes_iff]
    cases f.description with
    | none => simp
    | some d =>
      rw [Option.all_some, Option.all_some, beq_iff_eq, beq_iff_eq, Option.some_inj]
      exact eq_comm
  have htag : Answer.either (some f.tag.isNone) (some (hasTag (tagTable operations) r.id f.tag)) =
      some true ↔ f.tag.all r.tags.contains = true := by
    cases f.tag with
    | none => simp
    | some tag => simp [hasTag_tagTable_iff hr]
  rw [Bool.eq_iff_iff, decide_eq_true_eq, asksForPaused, Answer.both_eq_yes_iff,
    Answer.both_eq_yes_iff, Answer.both_eq_yes_iff, hdescription, asksFor_eq_yes_iff, htag,
    Filter.admits]
  simp [State.word, and_assoc]

/-- The question finds what the store finds. -/
theorem pausedByQuestion_eq (operations : List Operation) (f : Filter) :
    pausedByQuestion (after operations) (tagTable operations) f =
      (after operations).latestPaused f := by
  have hincreasing := increasing_pausedRows (sound_after operations).nested.ordered f
  rw [pausedByQuestion, filter_asksForPaused, head?_byStartDescending hincreasing]
  cases hlast : (byStart ((after operations).pausedRows f)).getLast? with
  | none => exact (latestPaused_of_none hlast).symm
  | some r =>
    have hr := (List.mem_filter.mp (mem_of_getLast?_byStart hlast)).1
    rw [latestPaused_of_some hlast]
    -- the row with its tags read from the table is the row itself
    simp only [tagsOf_tagTable hr]

/-! ## Sessions -/

/-- The session is stored under its number. -/
def Stores (s : Store) (session : Session) : Prop :=
  s.session? session.id = .ok (some session)

end Store

/-- The session is paused, and the filter admits it. -/
def Filter.Wants (f : Filter) (session : Session) : Prop :=
  session.state = .paused ∧
    f.admits session.description session.project session.tags = true

/-- What sessions are compared by. -/
def Session.startAndId (session : Session) : DateTime × SessionId :=
  (session.start, session.id)

namespace Store

variable {s : Store} {session : Session}

/-- With moments in years of four digits, a session is stored when its row is. -/
theorem stores_iff (ho : s.Ordered)
    (hrows : ∀ r ∈ s.rows, ∃ kept : Session, IsWithinYears kept.start kept.stop ∧ r = kept.row) :
    s.Stores session ↔ session.row ∈ s.rows ∧ IsWithinYears session.start session.stop := by
  have hread : ∀ {kept : Session}, IsWithinYears kept.start kept.stop →
      kept.row.session = .ok kept := fun h => session_row h.isWithinCalendar
  rw [Stores, session?_eq_ok_some_iff ho]
  constructor
  · rintro ⟨r, hr, -, hsession⟩
    obtain ⟨kept, hkept, rfl⟩ := hrows r hr
    obtain rfl := Except.ok.inj (hsession.symm.trans (hread hkept))
    exact ⟨hr, hkept⟩
  · rintro ⟨hr, hkept⟩
    exact ⟨session.row, hr, rfl, hread hkept⟩

theorem wants_iff {f : Filter} : f.Wants session ↔ (session.row.state == State.paused.word &&
    f.admits session.row.description session.row.project session.row.tags) = true := by
  have hstate : session.state = .paused ↔ session.state.word = State.paused.word := by
    cases session.state <;> decide
  rw [Filter.Wants, hstate, Bool.and_eq_true, beq_iff_eq]
  rfl

/-- A session is among the rows of paused work when it is stored and the filter wants it. -/
theorem row_mem_pausedRows_iff {f : Filter} :
    session.row ∈ s.pausedRows f ↔ session.row ∈ s.rows ∧ f.Wants session := by
  rw [pausedRows, List.mem_filter, wants_iff]

/-- In years of four digits the order of the texts is that of the moments. -/
theorem pairLE_startAndId_iff {a b : Session} (ha : IsWithinYears a.start a.stop)
    (hb : IsWithinYears b.start b.stop) :
    PairLE (Store.startAndId a.row) (Store.startAndId b.row) ↔
      PairLE a.startAndId b.startAndId := by
  have hinj := storedText_inj ha.1.inRange hb.1.inRange
  exact or_congr (storedText_lt_iff ha.1 hb.1) (and_congr_left fun _ => hinj)

/-- Looking for paused work in a store whose moments are in years of four digits does not fail. It
finds nothing exactly when no stored session is paused and admitted by the filter; else it finds
one of these, and none of the others has a greater pair of a start and a number. The question to
the rows and the table of tags finds the same. -/
theorem latestPaused_greatest (operations : List Operation) (f : Filter)
    (hyears : ∀ r ∈ (after operations).rows, r.InYears) :
    ∃ found, (after operations).latestPaused f = .ok found ∧
      pausedByQuestion (after operations) (tagTable operations) f = .ok found ∧
      (found = none ↔ ∀ session, (after operations).Stores session → ¬ f.Wants session) ∧
      ∀ best, found = some best → (after operations).Stores best ∧ f.Wants best ∧
        ∀ session, (after operations).Stores session → f.Wants session →
          PairLE session.startAndId best.startAndId := by
  have ho := (sound_after operations).nested.ordered
  have hrows : ∀ r ∈ (after operations).rows,
      ∃ kept : Session, IsWithinYears kept.start kept.stop ∧ r = kept.row := fun r hr =>
    (isRecorded_after operations r hr).exists_session (hyears r hr)
  rw [pausedByQuestion_eq]
  simp only [stores_iff ho hrows]
  cases hlast : (byStart ((after operations).pausedRows f)).getLast? with
  | none =>
    rw [latestPaused_of_none hlast]
    refine ⟨none, rfl, rfl, iff_of_true rfl fun session hstored hwants => ?_, by simp⟩
    have hmem := mem_byStart_iff.mpr (row_mem_pausedRows_iff.mpr ⟨hstored.1, hwants⟩)
    rw [List.getLast?_eq_none_iff.mp hlast] at hmem
    simp at hmem
  | some r =>
    -- the row that is found is that of a session, and this session is the answer
    have hr := mem_of_getLast?_byStart hlast
    obtain ⟨best, hbest, rfl⟩ := hrows r (List.mem_filter.mp hr).1
    obtain ⟨hrow, hwanted⟩ := row_mem_pausedRows_iff.mp hr
    have hstored : best.row ∈ (after operations).rows ∧ IsWithinYears best.start best.stop :=
      ⟨hrow, hbest⟩
    have hgreatest : ∀ session : Session, session.row ∈ (after operations).rows ∧
        IsWithinYears session.start session.stop → f.Wants session →
        PairLE session.startAndId best.startAndId := by
      intro session hother hwants
      have hmem := row_mem_pausedRows_iff.mpr ⟨hother.1, hwants⟩
      have hle := pairLE_of_getLast?_byStart (increasing_pausedRows ho f) hlast session.row hmem
      exact (pairLE_startAndId_iff hother.2 hbest).mp hle
    rw [latestPaused_of_some hlast, session_row hbest.isWithinCalendar]
    refine ⟨some best, rfl, rfl, iff_of_false (by simp) fun hnone => ?_, fun found hfound => ?_⟩
    · exact hnone best hstored hwanted
    · obtain rfl := Option.some.inj hfound
      exact ⟨hstored, hwanted, hgreatest⟩

/-! ## Drafts of a book -/

/-- A draft of a book that was paused, begun some minutes after another. -/
def draft (minutes : Nat) (project : Option String) (tags : List String) : Operation :=
  .insert { description := "Draft", project, tags, start := teaTime.addMinutes minutes,
            state := .paused }

/-- Two drafts begun at the same time, the second of them with its tag given later, and then one
for no book and one without the tag. -/
def drafts : List Operation :=
  [draft 0 (some "book") ["text"], draft 0 (some "book") [], .addTag (numberAt 0 1) "text",
    draft 60 none ["text"], draft 120 (some "book") ["plot"]]

/-- Work on the text of the book. -/
def textOfBook : Filter :=
  { project := some "book", tag := some "text" }

/-- Of the drafts that the filter admits, the one with the larger number is found. -/
theorem latestPaused_greatest_drafts :
    (∀ r ∈ (after drafts).rows, r.InYears) ∧
    ∃ best, (after drafts).latestPaused textOfBook = .ok (some best) ∧ best.id.value = 2 ∧
      best.tags = ["text"] ∧
      ∀ session, (after drafts).Stores session → textOfBook.Wants session →
        PairLE session.startAndId best.startAndId := by
  have hyears : ∀ r ∈ (after drafts).rows, r.InYears := by
    have hstarts : ∀ r ∈ (after drafts).rows, r.stop = none ∧
        ∃ minutes ∈ [0, 60, 120], IsWithinYears (teaTime.addMinutes minutes) none ∧
          r.start = storedText (teaTime.addMinutes minutes) := by decide +kernel
    intro r hr
    obtain ⟨hstop, minutes, -, hwithin, hstart⟩ := hstarts r hr
    exact ⟨_, none, hwithin, hstart, hstop⟩
  have hvalue : ((after drafts).latestPaused textOfBook).map
      (fun found => found.map fun best => (best.id.value, best.tags)) =
        .ok (some (2, ["text"])) := by
    rw [latestPaused, byStart, List.mergeSort_of_pairwise (by decide +kernel)]
    decide +kernel
  obtain ⟨found, hfound, -, -, hbest⟩ := latestPaused_greatest drafts textOfBook hyears
  rw [hfound] at hvalue
  obtain ⟨best, rfl, hpair⟩ := Option.map_eq_some_iff.mp (Except.ok.inj hvalue)
  obtain ⟨hid, htags⟩ := Prod.mk.inj hpair
  exact ⟨hyears, best, hfound, hid, htags, (hbest best rfl).2.2⟩

end Store

end Daybook
