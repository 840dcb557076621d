import Daybook.Proofs.Store.Operations

/-!
# The sessions of one log

The rows for the spans of a log stand after all others. Every session of the log is at the top
level or below one that is, and no earlier session is below one of them or goes on with one. So
when the sessions at the top level are removed, what was there before the log is left.

* `Store.topNumbers` : the numbers of a log at the top level.
* `Store.rows_eraseAll_topNumbers` : what is left without them.
* `Store.archive_congr` : work to go on with is found among the rows.
-/

namespace Daybook.Store

variable {s next : Store} {spans : List Span} {k : Nat} {span : Span} {r : Row}

/-! ## Numbers at the top level -/

/-- The numbers for the spans at the top level, in order. -/
def topNumbers (lastId : Nat) (spans : List Span) : List SessionId :=
  (spans.zipIdx.filter fun p => p.1.isTopLevel).map fun p => numberAt lastId p.2

theorem mem_topNumbers_iff {lastId : Nat} {id : SessionId} :
    id ∈ topNumbers lastId spans ↔
      ∃ (k : Nat) (span : Span), spans[k]? = some span ∧ span.parent = none ∧
        numberAt lastId k = id := by
  simp only [topNumbers, List.mem_map, List.mem_filter, List.mem_zipIdx_iff_getElem?,
    Span.isTopLevel, Option.isNone_iff_eq_none, Prod.exists, and_assoc]
  exact exists_comm

theorem topNumbers_increasing (lastId : Nat) (spans : List Span) :
    (topNumbers lastId spans).Pairwise (· < ·) := by
  have hpositions : (spans.zipIdx.map Prod.snd).Pairwise (· < ·) := by
    rw [List.zipIdx_map_snd]
    exact List.pairwise_lt_range'
  refine List.pairwise_map.mpr (((List.pairwise_map.mp hpositions).filter _).imp ?_)
  intro p q hlt
  show (lastId + p.2 + 1 : Int) < lastId + q.2 + 1
  omega

/-- The numbers depend only on which spans are at the top level. -/
theorem topNumbers_congr {spans' : List Span} (lastId : Nat)
    (h : spans.map Span.parent = spans'.map Span.parent) :
    topNumbers lastId spans = topNumbers lastId spans' := by
  have hmem : ∀ {spans : List Span} {id : SessionId}, id ∈ topNumbers lastId spans ↔
      ∃ k : Nat, (spans.map Span.parent)[k]? = some none ∧ numberAt lastId k = id := by
    intro spans id
    rw [mem_topNumbers_iff]
    simp only [List.getElem?_map, Option.map_eq_some_iff, ← exists_and_right, and_assoc]
  refine eq_of_pairwise_of_mem_iff (fun _ _ => Int.lt_asymm) (topNumbers_increasing lastId spans)
    (topNumbers_increasing lastId spans') fun id => ?_
  rw [hmem, hmem, h]

theorem length_topNumbers (lastId : Nat) (spans : List Span) :
    (topNumbers lastId spans).length = spans.countP Span.isTopLevel := by
  have hcount : spans.zipIdx.countP (Span.isTopLevel ∘ Prod.fst) =
      (spans.zipIdx.map Prod.fst).countP Span.isTopLevel := List.countP_map.symm
  rw [List.zipIdx_map_fst] at hcount
  rw [topNumbers, List.length_map, ← hcount, List.countP_eq_length_filter]
  rfl

/-- The numbers of a log are beyond all that were given out before. -/
theorem lt_of_mem_topNumbers {lastId : Nat} {id : SessionId} (h : id ∈ topNumbers lastId spans) :
    (lastId : Int) < id.value := by
  obtain ⟨k, span, -, -, rfl⟩ := mem_topNumbers_iff.mp h
  show (lastId : Int) < lastId + k + 1
  omega

/-! ## Taking a log away again -/

/-- The rows of `next` are those of `s`, and after them those for the spans of a log. -/
structure Extends (s : Store) (spans : List Span) (next : Store) : Prop where
  rows : next.rows = s.rows ++ spans.mapIdx (rowAt s.lastId)
  back : ∀ k span, spans[k]? = some span → RefersBack k span

theorem Extends.mem_rowAt (h : s.Extends spans next) (hspan : spans[k]? = some span) :
    rowAt s.lastId k span ∈ next.rows := by
  rw [h.rows]
  exact List.mem_append_right _ (mem_mapIdx_rowAt.mpr ⟨k, span, hspan, rfl⟩)

/-- All sessions of the log go with those at the top level. -/
theorem Extends.taken_rowAt (h : s.Extends spans next) (hspan : spans[k]? = some span) :
    next.Taken (topNumbers s.lastId spans) (rowAt s.lastId k span) := by
  -- by induction on the position, since a span interrupts an earlier one
  induction k using Nat.strongRecOn generalizing span with
  | ind k ih =>
    cases hparent : span.parent with
    | none => exact .inl (mem_topNumbers_iff.mpr ⟨k, span, hspan, hparent, rfl⟩)
    | some target =>
      have hlt := (h.back k span hspan).parent target hparent
      have hbound := Nat.lt_trans hlt (List.getElem?_eq_some_iff.mp hspan).1
      have habove := List.getElem?_eq_getElem hbound
      refine taken_of_above (h.mem_rowAt habove) ?_ (ih target hlt habove)
      simp only [rowAt, rowOf, sessionOf, hparent, Option.map_some]

/-- A session that was there before the log stays. -/
theorem Extends.not_taken (h : s.Extends spans next) (hs : s.Ordered) (hn : next.Nested)
    (hr : r ∈ s.rows) : ¬ next.Taken (topNumbers s.lastId spans) r := by
  intro htaken
  have hmem : r ∈ next.rows := h.rows ▸ List.mem_append_left _ hr
  obtain ⟨id, hid, hle⟩ := exists_le_of_taken hn hmem htaken
  have hbound := hs.bounded r hr
  have hbeyond := lt_of_mem_topNumbers hid
  omega

/-- A session that was there before the log keeps its link. -/
theorem not_loses_topNumbers (hs : s.Ordered) (hl : s.LinksBack) (hn : next.Nested)
    (hr : r ∈ s.rows) : ¬ next.Loses (topNumbers s.lastId spans) r := by
  rintro ⟨t, ht, htaken, hlink⟩
  obtain ⟨id, hid, hle⟩ := exists_le_of_taken hn ht htaken
  have hback := (hl r hr _ hlink).1
  have hbound := hs.bounded r hr
  have hbeyond := lt_of_mem_topNumbers hid
  omega

/-- Without the sessions of a log at the top level, what was there before it is left. -/
theorem rows_eraseAll_topNumbers (h : s.Extends spans next) (hs : s.Ordered) (hl : s.LinksBack)
    (hn : next.Nested) : (next.eraseAll (topNumbers s.lastId spans)).1.rows = s.rows := by
  have hleft := (hn.ordered.eraseAll (topNumbers s.lastId spans)).increasing
  refine eq_of_pairwise_of_mem_iff (fun _ _ => Int.lt_asymm) hleft hs.increasing fun row => ?_
  rw [mem_eraseAll_iff hn]
  have hsame : ∀ r ∈ s.rows, next.LeftOf (topNumbers s.lastId spans) r r := fun r hr =>
    leftOf_self (h.not_taken hs hn hr) (not_loses_topNumbers hs hl hn hr)
  constructor
  · rintro ⟨r, hr, hrow⟩
    rw [h.rows] at hr
    rcases List.mem_append.mp hr with hr | hr
    · exact hrow.unique (hsame r hr) ▸ hr
    · obtain ⟨k, span, hspan, rfl⟩ := mem_mapIdx_rowAt.mp hr
      exact absurd (h.taken_rowAt hspan) hrow.stays
  · intro hrow
    exact ⟨row, h.rows ▸ List.mem_append_left _ hrow, hsame row hrow⟩

/-- A session of the log is at most as many levels below one at the top level as there are
entries before its own. -/
theorem Extends.exists_isLevel_le (h : s.Extends spans next) (hn : next.Nested)
    (hspan : spans[k]? = some span) {v : Int} {n : Nat}
    (hlevel : next.IsLevel v n (rowAt s.lastId k span)) :
    ∃ m ≤ k, next.IsLevel v m (rowAt s.lastId k span) := by
  -- by induction on the position; the way up leads through earlier positions only
  induction k using Nat.strongRecOn generalizing span n with
  | ind k ih =>
    cases hparent : span.parent with
    | none =>
      have htop : (rowAt s.lastId k span).parent = none := by
        simp only [rowAt, rowOf, sessionOf, hparent, Option.map_none]
      exact absurd hlevel (not_isLevel_of_top htop)
    | some target =>
      have hlt := (h.back k span hspan).parent target hparent
      cases hlevel with
      | direct hdirect => exact ⟨1, by omega, .direct hdirect⟩
      | @through n _ above habove hthrough hup =>
        have hbound := Nat.lt_trans hlt (List.getElem?_eq_some_iff.mp hspan).1
        have htarget := List.getElem?_eq_getElem hbound
        obtain rfl : above = rowAt s.lastId target spans[target] := by
          apply hn.ordered.eq_of_id habove (h.mem_rowAt htarget)
          simpa [rowAt, rowOf, sessionOf, hparent] using hthrough.symm
        obtain ⟨m, hm, hup'⟩ := ih target hlt htarget hup
        exact ⟨m + 1, by omega, .through habove hthrough hup'⟩

/-- The sessions of a log that is not too long can be removed. -/
theorem Extends.not_isBeyond (h : s.Extends spans next) (hs : s.Ordered) (hn : next.Nested)
    (hshort : spans.length ≤ levelLimit + 1) {id : SessionId}
    (hid : id ∈ topNumbers s.lastId spans) (hr : r ∈ next.rows) :
    ¬ next.IsBeyond id.value r := by
  rintro ⟨⟨n, hlevel⟩, hfar⟩
  rw [h.rows] at hr
  rcases List.mem_append.mp hr with hr | hr
  · exact h.not_taken hs hn hr (.inr ⟨id, hid, n, hlevel⟩)
  · obtain ⟨k, span, hspan, rfl⟩ := mem_mapIdx_rowAt.mp hr
    obtain ⟨m, hm, hlevel'⟩ := h.exists_isLevel_le hn hspan hlevel
    have hdeep := hfar m hlevel'
    have hbound := (List.getElem?_eq_some_iff.mp hspan).1
    omega

/-! ## Work to go on with -/

/-- Stores with the same rows have the same work to go on with. -/
theorem archive_congr {a b : Store} (h : a.rows = b.rows) : a.archive = b.archive := by
  have hsession : ∀ id, a.session? id = b.session? id := by
    intro id
    rw [session?, session?, row?, row?, h]
  have hchain : ∀ fuel visited current,
      a.chainFrom fuel visited current = b.chainFrom fuel visited current := by
    intro fuel
    induction fuel with
    | zero => exact fun _ _ => rfl
    | succ fuel ih =>
      intro visited current
      simp only [chainFrom, hsession, ih]
  have hroot : a.chainRoot = b.chainRoot := by
    funext id
    simp only [chainRoot, hsession, hchain, h]
  have hlatest : a.latestPaused = b.latestPaused := by
    funext f
    simp only [latestPaused, h]
  rw [archive, archive, hroot, hlatest]

end Daybook.Store
