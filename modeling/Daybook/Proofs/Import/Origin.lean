import Daybook.Proofs.Import.Overlap
import Daybook.Proofs.Store.Operations
import Mathlib.Data.List.Induction

/-!
# Where sessions come from

A number is given out once and for all, so every session that is stored has one import of the run
that stored it. That import gave it the place of its entry in the log as its number, counted from
the last one before, and the bounds of the entry. What later imports leave of it keeps both.

* `StoredBy` : an import of a run stored a session; `StoredBy.unique` : no other one did.
* `exists_origin` : every session that is stored is that of an entry in the log of its import.
-/

namespace Daybook

namespace Store

variable {store : Store} {s : Span} {row : Row}

/-! ## Bounds that are kept -/

/-- Clearing a link leaves the bounds and the place of a row. -/
theorem HasBoundsOf.unlink (h : HasBoundsOf s row) (gone : List Int) :
    HasBoundsOf s (unlink gone row) := by
  obtain ⟨n, hstart, hstop, hrow, hparent⟩ := h
  unfold Store.unlink
  split
  · exact ⟨{ n with continues := none }, hstart, hstop, by rw [hrow]; rfl, hparent⟩
  · exact ⟨n, hstart, hstop, hrow, hparent⟩

/-- A row with the bounds of a span is that of a session with these bounds. -/
theorem HasBoundsOf.exists_session (h : HasBoundsOf s row) :
    ∃ x : Session, row = x.row ∧ x.start = s.start ∧ x.stop = s.stop := by
  obtain ⟨n, hstart, hstop, hrow, -⟩ := h
  exact ⟨numbered row.id n, hrow, hstart, hstop⟩

/-- What removing sessions leaves was there before, with the same number and the same bounds. -/
theorem exists_of_mem_eraseAll (ids : List SessionId) :
    ∀ row ∈ (store.eraseAll ids).1.rows, ∃ old ∈ store.rows, row.id = old.id ∧
      ∀ s, HasBoundsOf s old → HasBoundsOf s row := by
  refine eraseAll_induction (P := fun left => ∀ row ∈ left.rows, ∃ old ∈ store.rows,
    row.id = old.id ∧ ∀ s, HasBoundsOf s old → HasBoundsOf s row) ?_ ids ?_
  · intro left id hleft
    refine forall_mem_erase ?_ hleft id
    rintro gone row ⟨old, hold, hid, hkept⟩
    exact ⟨old, hold, (id_unlink gone row).trans hid, fun s hs => (hkept s hs).unlink gone⟩
  · intro row hrow
    exact ⟨row, hrow, rfl, fun _ hs => hs⟩

end Store

namespace Import

open Store (HasBoundsOf numberAt)

variable {requests before before' : List Request} {r r' : Request} {id : SessionId} {row : Row}

/-! ## One import -/

/-- The last number that was given out never decreases. -/
theorem Request.lastId_le_apply (store : Store) (r : Request) :
    store.lastId ≤ (r.apply store).lastId := by
  rcases apply_cases store r with hsame | ⟨conflicts, done, -, -, -, -, hreplace⟩
  · rw [hsame]
  · exact Store.lastId_le_replace hreplace

/-- A session that is there after an import was there before it with the same bounds, or it is that
of an entry of the log, and its number is new. -/
theorem Request.mem_apply {store : Store} (hrow : row ∈ (r.apply store).rows) :
    (∃ old ∈ store.rows, row.id = old.id ∧ ∀ s, HasBoundsOf s old → HasBoundsOf s row) ∨
      ∃ k s, r.spans[k]? = some s ∧ row.id = numberAt store.lastId k ∧ HasBoundsOf s row := by
  rcases apply_cases store r with hsame | ⟨conflicts, done, -, -, -, -, hreplace⟩
  · rw [hsame] at hrow
    exact .inl ⟨row, hrow, rfl, fun _ hs => hs⟩
  · obtain ⟨resolved, all, hresolve, hstore⟩ := Store.replace_ok hreplace
    obtain ⟨hframes, -⟩ := Timeline.resolve_linked (Store.answers_isStored _) hresolve
    rw [(Store.importSpans_ok hstore).1, Store.lastId_eraseAll] at hrow
    rcases List.mem_append.mp hrow with hrow | hrow
    · exact .inl (Store.exists_of_mem_eraseAll conflicts row hrow)
    · obtain ⟨k, t, ht, rfl⟩ := Store.mem_mapIdx_rowAt.mp hrow
      obtain ⟨s, hs, hbounds⟩ := Store.exists_hasBoundsOf_rowAt hframes ht store.lastId
      exact .inr ⟨k, s, hs, rfl, hbounds⟩

/-! ## Runs -/

theorem reached_snoc (requests : List Request) (r : Request) :
    reached (requests ++ [r]) = r.apply (reached requests) := by
  rw [reached, List.foldl_append]
  rfl

theorem lastId_le_of_prefix (h : before <+: requests) :
    (reached before).lastId ≤ (reached requests).lastId := by
  obtain ⟨later, rfl⟩ := h
  induction later using List.reverseRecOn with
  | nil => rw [List.append_nil]
  | append_singleton later r ih =>
    rw [← List.append_assoc, reached_snoc]
    exact Nat.le_trans ih (Request.lastId_le_apply _ r)

/-- The import of `r`, which comes in the run right after those of `before`, stored the session
with the number: it was not there before the import, and it was there afterwards. -/
structure StoredBy (requests before : List Request) (r : Request) (id : SessionId) : Prop where
  place : before ++ [r] <+: requests
  absent : (reached before).contains id.value = false
  present : (reached (before ++ [r])).contains id.value = true

namespace StoredBy

theorem mem (h : StoredBy requests before r id) : r ∈ requests :=
  h.place.subset (List.mem_append_right before List.mem_cons_self)

theorem append (h : StoredBy requests before r id) (later : List Request) :
    StoredBy (requests ++ later) before r id :=
  ⟨h.place.trans (List.prefix_append _ _), h.absent, h.present⟩

/-- The number of a session is beyond all that were given out before its import. -/
theorem lastId_lt (h : StoredBy requests before r id) : (reached before).lastId < id.value := by
  obtain ⟨row, hrow, hid⟩ := Store.contains_iff.mp h.present
  rw [reached_snoc] at hrow
  rcases Request.mem_apply hrow with ⟨old, hold, hsame, -⟩ | ⟨k, s, -, hnumber, -⟩
  · rw [hsame] at hid
    exact absurd hid (Store.contains_eq_false_iff.mp h.absent old hold)
  · rw [← hid, hnumber]
    simp only [numberAt]
    omega

theorem le_lastId (h : StoredBy requests before r id) :
    id.value ≤ (reached (before ++ [r])).lastId := by
  obtain ⟨row, hrow, hid⟩ := Store.contains_iff.mp h.present
  rw [← hid]
  exact (linked_reached _).1.bounded row hrow

/-- Of two imports that come one after the other, not both stored the session. -/
theorem length_le (h : StoredBy requests before r id) (h' : StoredBy requests before' r' id) :
    before'.length ≤ before.length := by
  apply Nat.le_of_not_lt
  intro hlt
  -- the later import finds the number given out, and gives out larger ones
  have hfirst : before' <+: requests := (List.prefix_append before' [r']).trans h'.place
  have hwithin : before ++ [r] <+: before' :=
    List.prefix_of_prefix_length_le h.place hfirst (by
      rw [List.length_append, List.length_singleton]
      exact hlt)
  have hle := lastId_le_of_prefix hwithin
  have hgiven := h.le_lastId
  have hlarger := h'.lastId_lt
  omega

/-- A session is stored by one import of a run only. -/
theorem unique (h : StoredBy requests before r id) (h' : StoredBy requests before' r' id) :
    before = before' ∧ r = r' := by
  have hlength : before.length = before'.length :=
    Nat.le_antisymm (h'.length_le h) (h.length_le h')
  have hwithin : before ++ [r] <+: before' ++ [r'] :=
    List.prefix_of_prefix_length_le h.place h'.place (by simp [hlength])
  obtain ⟨hbefore, hlast⟩ := List.append_inj (hwithin.eq_of_length (by simp [hlength])) hlength
  exact ⟨hbefore, List.singleton_inj.mp hlast⟩

end StoredBy

/-! ## The entry of a session -/

/-- The session of the row was stored by the import of `r` after those of `before`, for the span at
position `k` of its log, and has the bounds of this span. -/
structure Origin (requests before : List Request) (r : Request) (k : Nat) (s : Span) (row : Row) :
    Prop where
  stored : StoredBy requests before r row.id
  span : r.spans[k]? = some s
  number : row.id = numberAt (reached before).lastId k
  bounds : HasBoundsOf s row

/-- Every session that is stored was stored by an import of the run, for a span of its log. -/
theorem exists_origin (requests : List Request) :
    ∀ row ∈ (reached requests).rows, ∃ before r k s, Origin requests before r k s row := by
  -- by induction on the run, from its last import on
  induction requests using List.reverseRecOn with
  | nil => simp [reached, Store.empty]
  | append_singleton requests r ih =>
    intro row hrow
    have hafter : row ∈ (r.apply (reached requests)).rows := by rwa [← reached_snoc]
    rcases Request.mem_apply hafter with ⟨old, hold, hid, hkept⟩ | ⟨k, s, hs, hnumber, hbounds⟩
    · obtain ⟨before, q, k, s, horigin⟩ := ih old hold
      refine ⟨before, q, k, s, ?_, horigin.span, hid.trans horigin.number, hkept s horigin.bounds⟩
      rw [hid]
      exact horigin.stored.append [r]
    · refine ⟨requests, r, k, s, ⟨List.prefix_rfl, ?absent, ?present⟩, hs, hnumber, hbounds⟩
      case absent =>
        refine Store.contains_eq_false_iff.mpr fun old hold heq => ?_
        have hle := (linked_reached requests).1.bounded old hold
        rw [heq, hnumber] at hle
        simp only [numberAt] at hle
        omega
      case present => exact Store.contains_iff.mpr ⟨row, hrow, rfl⟩

end Import

end Daybook
