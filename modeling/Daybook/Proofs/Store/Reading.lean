import Daybook.Proofs.Store.Admission
import Daybook.Proofs.Store.Moments

/-!
# Reading rows

A row is written for a session and reads back as that session, as long as its moments are in
years that can be read.

* `Store.session_row` : the row of a session reads as the session.
* `Store.Readable` : every row of a store can be read.
-/

namespace Daybook

/-- The start, and the end if there is one, are in years that can be read. -/
def IsWithinCalendar (start : DateTime) (stop : Option DateTime) : Prop :=
  start.date.InRange ∧ ∀ t ∈ stop, t.date.InRange

instance (start : DateTime) (stop : Option DateTime) : Decidable (IsWithinCalendar start stop) :=
  inferInstanceAs (Decidable (_ ∧ _))

/-- The row that is written for a session. -/
def Session.row (s : Session) : Row :=
  { id := s.id
    description := s.description
    project := s.project
    tags := s.tags
    start := storedText s.start
    stop := s.stop.map storedText
    state := s.state.word
    parent := s.parent.map SessionId.value
    continues := s.continues.map SessionId.value
    estimate := s.estimate
    remark := s.remark }

/-- The row was written for a session whose bounds can be read. -/
def Row.IsKept (r : Row) : Prop :=
  ∃ session : Session, IsWithinCalendar session.start session.stop ∧ r = session.row

namespace Store

/-! ## Single rows -/

theorem checked_ofWord_word (state : State) : checked (State.ofWord state.word) = .ok state := by
  rw [State.ofWord, State.ofWord?_word]
  rfl

theorem linkOf_value (link : Option SessionId) : linkOf (link.map SessionId.value) = .ok link := by
  cases link with
  | none => rfl
  | some id =>
    rw [Option.map_some, linkOf, SessionId.ofInt_value]
    rfl

/-- The row that is written for a session reads as the session. -/
theorem session_row {session : Session} (h : IsWithinCalendar session.start session.stop) :
    session.row.session = .ok session := by
  obtain ⟨id, description, project, tags, start, stop, state, parent, continues, estimate,
    remark⟩ := session
  have hstart : momentOf id (storedText start) = .ok start := momentOf_storedText id h.1
  -- the fields are read one after the other, the end only if there is one
  unfold Row.session
  simp only [Session.row, hstart, checked_ofWord_word, linkOf_value]
  cases stop with
  | none => rfl
  | some t =>
    have ht : momentOf id (storedText t) = .ok t := momentOf_storedText id (h.2 t rfl)
    simp only [Option.map_some, ht]
    rfl

/-- The session that a new session becomes under a number. -/
def numbered (id : SessionId) (n : NewSession) : Session :=
  { id
    description := n.description
    project := n.project
    tags := n.tags.eraseDups
    start := n.start
    stop := n.stop
    state := n.state
    parent := n.parent
    continues := n.continues
    estimate := n.estimate
    remark := n.remark }

theorem rowOf_eq (id : SessionId) (n : NewSession) : rowOf id n = (numbered id n).row := rfl

theorem isKept_rowOf (id : SessionId) {n : NewSession} (h : IsWithinCalendar n.start n.stop) :
    (rowOf id n).IsKept :=
  ⟨numbered id n, h, rfl⟩

theorem isKept_unlink (gone : List Int) {r : Row} (h : r.IsKept) : (unlink gone r).IsKept := by
  obtain ⟨session, hbounds, rfl⟩ := h
  unfold unlink
  split
  · exact ⟨{ session with continues := none }, hbounds, rfl⟩
  · exact ⟨session, hbounds, rfl⟩

/-! ## Stores that can be read -/

/-- Every row was written for a session that can be read. -/
def Readable (s : Store) : Prop :=
  ∀ r ∈ s.rows, r.IsKept

variable {s : Store}

theorem Readable.empty : empty.Readable := by
  simp [Readable, Store.empty]

theorem Readable.erase (h : s.Readable) (id : SessionId) : (s.erase id).Readable :=
  forall_mem_erase (fun gone _ hr => isKept_unlink gone hr) h id

theorem Readable.eraseAll (h : s.Readable) (ids : List SessionId) : (s.eraseAll ids).1.Readable :=
  eraseAll_induction (fun _ id ht => ht.erase id) ids h

theorem Readable.importSpans (h : s.Readable) {spans : List Span} {after : Store}
    {all : List SessionId} (hspans : ∀ span ∈ spans, IsWithinCalendar span.start span.stop)
    (hok : s.importSpans spans = .ok (after, all)) : after.Readable := by
  intro r hr
  rw [(importSpans_ok hok).1] at hr
  rcases List.mem_append.mp hr with hr | hr
  · exact h r hr
  · obtain ⟨k, span, hspan, rfl⟩ := mem_mapIdx_rowAt.mp hr
    exact isKept_rowOf _ (hspans span (List.mem_of_getElem? hspan))

end Store

end Daybook
