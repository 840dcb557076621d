import Daybook.Proofs.Store.Removal

/-!
# The table of tags

The tags of all sessions as a table of rows: a session, a tag, and the position of the tag among
those of its session. No session has a tag twice in it, and a row that would be a repeat is left
out; the position that it would have had stays free. Tags are read in the order of their
positions.

* `TagRows.Keeps` : the table says the same as the tags that sessions are stored with.
* `keeps_tagTable` : the table that operations lead to says the same as the store.
* `tagsOf_tagTable` : the tags of a session, read from the table.
-/

namespace Daybook

/-- A tag of a session, and its position among the tags of the session. -/
structure TagRow where
  session : SessionId
  tag : String
  position : Nat
deriving DecidableEq, Repr

/-- A table of tags: its rows, in the order in which they were added. -/
abbrev TagRows := List TagRow

namespace TagRows

/-! ## Changing and reading the table -/

/-- The rows of a session. -/
def rowsOf (table : TagRows) (id : SessionId) : TagRows :=
  table.filter fun row => row.session = id

/-- Adds a row, unless its session has its tag already. -/
def insertOrIgnore (table : TagRows) (row : TagRow) : TagRows :=
  if row.tag ∈ (table.rowsOf row.session).map TagRow.tag then table else table ++ [row]

/-- Adds tags of a session at positions that count up. A repeat takes up its position all the
same. -/
def addFrom (table : TagRows) (id : SessionId) (position : Nat) : List String → TagRows
  | [] => table
  | tag :: rest => (table.insertOrIgnore ⟨id, tag, position⟩).addFrom id (position + 1) rest

/-- The position behind the last one of a session, or the first one if it has no tags. -/
def nextPosition (table : TagRows) (id : SessionId) : Nat :=
  match ((table.rowsOf id).map TagRow.position).max? with
  | some last => last + 1
  | none => 0

/-- Adds one more tag of a session, behind those that it has. -/
def addNext (table : TagRows) (id : SessionId) (tag : String) : TagRows :=
  table.insertOrIgnore ⟨id, tag, table.nextPosition id⟩

/-- Adds the tags of new sessions. -/
def addAll (table : TagRows) : List (SessionId × List String) → TagRows
  | [] => table
  | (id, tags) :: rest => (table.addFrom id 0 tags).addAll rest

/-- What is left when only some sessions are. -/
def keepOnly (table : TagRows) (ids : List SessionId) : TagRows :=
  table.filter fun row => row.session ∈ ids

/-- The tags of a session, by position and then by tag. -/
def tagsOf (table : TagRows) (id : SessionId) : List String :=
  ((table.rowsOf id).mergeSort fun a b =>
    decide (a.position < b.position ∨ a.position = b.position ∧ a.tag ≤ b.tag)).map TagRow.tag

/-! ## Rows of one session -/

variable {table : TagRows} {id other : SessionId} {tag : String} {tags : List String} {k : Nat}

theorem rowsOf_append (table others : TagRows) (id : SessionId) :
    rowsOf (table ++ others) id = table.rowsOf id ++ others.rowsOf id :=
  List.filter_append _ _

theorem rowsOf_insertOrIgnore (table : TagRows) (id : SessionId) (tag : String) (k : Nat) :
    (table.insertOrIgnore ⟨id, tag, k⟩).rowsOf id =
      if tag ∈ (table.rowsOf id).map TagRow.tag then table.rowsOf id
      else table.rowsOf id ++ [⟨id, tag, k⟩] := by
  unfold insertOrIgnore
  split
  · rfl
  · rw [rowsOf_append]
    simp [rowsOf]

/-- A row of one session leaves those of the others alone. -/
theorem rowsOf_insertOrIgnore_of_ne (h : other ≠ id) (table : TagRows) (tag : String) (k : Nat) :
    (table.insertOrIgnore ⟨id, tag, k⟩).rowsOf other = table.rowsOf other := by
  unfold insertOrIgnore
  split
  · rfl
  · rw [rowsOf_append]
    simp [rowsOf, h.symm]

theorem rowsOf_addFrom_of_ne (h : other ≠ id) (table : TagRows) (k : Nat) (tags : List String) :
    (table.addFrom id k tags).rowsOf other = table.rowsOf other := by
  induction tags generalizing table k with
  | nil => rfl
  | cons tag rest ih => rw [addFrom, ih, rowsOf_insertOrIgnore_of_ne h]

/-- The rows of a session stand in the order of their positions and hold the tags. -/
structure Holds (table : TagRows) (id : SessionId) (tags : List String) : Prop where
  tags : (table.rowsOf id).map TagRow.tag = tags
  increasing : (table.rowsOf id).Pairwise fun a b => a.position < b.position

/-- The positions of a session are all before one. -/
def Below (table : TagRows) (id : SessionId) (k : Nat) : Prop :=
  ∀ row ∈ table.rowsOf id, row.position < k

theorem Holds.insertOrIgnore (h : table.Holds id tags) (hdistinct : tags.Nodup)
    (hbelow : table.Below id k) (tag : String) :
    (table.insertOrIgnore ⟨id, tag, k⟩).Holds id (tags ++ [tag]).eraseDups ∧
      (table.insertOrIgnore ⟨id, tag, k⟩).Below id (k + 1) := by
  rw [eraseDups_snoc, eraseDups_of_nodup hdistinct, ← h.tags]
  have hrows := rowsOf_insertOrIgnore table id tag k
  split at hrows
  · next hrepeat =>
    rw [if_pos hrepeat]
    refine ⟨⟨by rw [hrows], by rw [hrows]; exact h.increasing⟩, fun row hrow => ?_⟩
    rw [hrows] at hrow
    exact Nat.lt_succ_of_lt (hbelow row hrow)
  · next hnew =>
    rw [if_neg hnew]
    refine ⟨⟨by rw [hrows]; simp, ?_⟩, fun row hrow => ?_⟩
    · rw [hrows]
      refine List.pairwise_append.mpr ⟨h.increasing, List.pairwise_singleton _ _, ?_⟩
      intro a ha b hb
      obtain rfl := List.mem_singleton.mp hb
      exact hbelow a ha
    · rw [hrows] at hrow
      rcases List.mem_append.mp hrow with hrow | hrow
      · exact Nat.lt_succ_of_lt (hbelow row hrow)
      · obtain rfl := List.mem_singleton.mp hrow
        exact Nat.lt_succ_self k

/-- Tags that are added behind others are kept without repeats, in the order in which they came. -/
theorem Holds.addFrom (h : table.Holds id tags) (hdistinct : tags.Nodup) (hbelow : table.Below id k)
    (new : List String) : (table.addFrom id k new).Holds id (tags ++ new).eraseDups := by
  induction new generalizing table tags k with
  | nil => rwa [List.append_nil, eraseDups_of_nodup hdistinct]
  | cons tag rest ih =>
    obtain ⟨hfirst, hnext⟩ := h.insertOrIgnore hdistinct hbelow tag
    have hrest := ih hfirst (nodup_eraseDups _) hnext
    rwa [eraseDups_eraseDups_append, List.append_assoc, List.singleton_append] at hrest

theorem below_nextPosition (table : TagRows) (id : SessionId) :
    table.Below id (table.nextPosition id) := by
  intro row hrow
  have hmem := List.mem_map_of_mem (f := TagRow.position) hrow
  unfold nextPosition
  split
  · next last hlast =>
    exact Nat.lt_succ_of_le ((List.max?_eq_some_iff.mp hlast).2 _ hmem)
  · next hnone =>
    rw [List.max?_eq_none_iff.mp hnone] at hmem
    simp at hmem

theorem Holds.addNext (h : table.Holds id tags) (hdistinct : tags.Nodup) (tag : String) :
    (table.addNext id tag).Holds id (tags ++ [tag]).eraseDups :=
  (h.insertOrIgnore hdistinct (table.below_nextPosition id) tag).1

/-- Read in the order of their positions, the tags are those that the rows hold. -/
theorem Holds.tagsOf_eq (h : table.Holds id tags) : table.tagsOf id = tags := by
  rw [tagsOf, List.mergeSort_of_pairwise, h.tags]
  exact h.increasing.imp fun hlt => decide_eq_true (.inl hlt)

/-- Where only some sessions are left, those have the rows that they had. -/
theorem Holds.keepOnly {ids : List SessionId} (h : table.Holds id tags) (hid : id ∈ ids) :
    (table.keepOnly ids).Holds id tags := by
  have hrows : (table.keepOnly ids).rowsOf id = table.rowsOf id := by
    rw [rowsOf, TagRows.keepOnly, List.filter_filter]
    refine List.filter_congr fun row _ => ?_
    by_cases hrow : row.session = id
    · simp [hrow, hid]
    · simp [hrow]
  exact ⟨hrows ▸ h.tags, hrows ▸ h.increasing⟩

/-! ## Tables and sessions -/

variable {sessions left new : List (SessionId × List String)}

/-- The table holds the tags of sessions, and no others. -/
structure Keeps (table : TagRows) (sessions : List (SessionId × List String)) : Prop where
  holds : ∀ p ∈ sessions, table.Holds p.1 p.2
  known : ∀ row ∈ table, row.session ∈ sessions.map Prod.fst

theorem Keeps.empty : Keeps [] [] where
  holds := by simp
  known := by simp

/-- A table without rows of a session holds no tags of it. -/
theorem Keeps.rowsOf_eq_nil (h : table.Keeps sessions) (hid : id ∉ sessions.map Prod.fst) :
    table.rowsOf id = [] := by
  refine List.filter_eq_nil_iff.mpr fun row hrow heq => hid ?_
  have hrow' := h.known row hrow
  rwa [of_decide_eq_true heq] at hrow'

/-- The tags of a new session are added to those of the others. -/
theorem Keeps.addFrom (h : table.Keeps sessions) (hid : id ∉ sessions.map Prod.fst)
    (tags : List String) :
    (table.addFrom id 0 tags).Keeps (sessions ++ [(id, tags.eraseDups)]) where
  holds p hp := by
    rcases List.mem_append.mp hp with hp | hp
    · have hne : p.1 ≠ id := fun heq => hid (heq ▸ List.mem_map_of_mem hp)
      obtain ⟨htags, hincreasing⟩ := h.holds p hp
      have hrows := rowsOf_addFrom_of_ne hne table 0 tags
      exact ⟨hrows ▸ htags, hrows ▸ hincreasing⟩
    · obtain rfl := List.mem_singleton.mp hp
      have hnone := h.rowsOf_eq_nil hid
      have hholds : table.Holds id [] := ⟨by simp [hnone], by simp [hnone]⟩
      have hbelow : table.Below id 0 := by simp [Below, hnone]
      exact hholds.addFrom List.nodup_nil hbelow tags
  known row hrow := by
    rw [List.map_append, List.mem_append]
    by_cases heq : row.session = id
    · exact .inr (by simp [heq])
    · -- the row is one of another session, so it was there before
      have hmem : row ∈ (table.addFrom id 0 tags).rowsOf row.session :=
        List.mem_filter.mpr ⟨hrow, by simp⟩
      rw [rowsOf_addFrom_of_ne heq] at hmem
      exact .inl (h.known row (List.mem_filter.mp hmem).1)

/-- So are those of any number of new sessions. -/
theorem Keeps.addAll (h : table.Keeps sessions)
    (hdistinct : (sessions.map Prod.fst ++ new.map Prod.fst).Nodup) :
    (table.addAll new).Keeps (sessions ++ new.map fun p => (p.1, p.2.eraseDups)) := by
  induction new generalizing table sessions with
  | nil => simpa [TagRows.addAll] using h
  | cons p rest ih =>
    obtain ⟨id, tags⟩ := p
    have hid : id ∉ sessions.map Prod.fst := by
      rw [List.map_cons, List.nodup_append] at hdistinct
      exact fun hmem => hdistinct.2.2 id hmem id List.mem_cons_self rfl
    have hrest := ih (h.addFrom hid tags) (by simpa using hdistinct)
    rwa [List.append_assoc, List.singleton_append] at hrest

/-- One more tag of a session is added behind those that it has. -/
theorem Keeps.addNext (h : table.Keeps sessions) (hid : id ∈ sessions.map Prod.fst)
    (hdistinct : ∀ p ∈ sessions, p.2.Nodup) (tag : String) :
    (table.addNext id tag).Keeps
      (sessions.map fun p => if p.1 = id then (p.1, (p.2 ++ [tag]).eraseDups) else p) where
  holds p hp := by
    obtain ⟨old, hold, rfl⟩ := List.mem_map.mp hp
    have hholds := h.holds old hold
    split
    · next heq =>
      rw [← heq]
      exact hholds.addNext (hdistinct old hold) tag
    · next hne =>
      have hrows := rowsOf_insertOrIgnore_of_ne hne table tag (table.nextPosition id)
      exact ⟨hrows ▸ hholds.tags, hrows ▸ hholds.increasing⟩
  known row hrow := by
    have hfst : (sessions.map fun p => if p.1 = id then (p.1, (p.2 ++ [tag]).eraseDups) else p).map
        Prod.fst = sessions.map Prod.fst := by
      rw [List.map_map]
      refine List.map_congr_left fun p _ => ?_
      simp only [Function.comp_apply]
      split <;> rfl
    rw [hfst]
    unfold TagRows.addNext insertOrIgnore at hrow
    split at hrow
    · exact h.known row hrow
    · rcases List.mem_append.mp hrow with hrow | hrow
      · exact h.known row hrow
      · obtain rfl := List.mem_singleton.mp hrow
        exact hid

/-- When sessions go, their tags go, and the others are kept. -/
theorem Keeps.keepOnly (h : table.Keeps sessions) (hleft : ∀ p ∈ left, p ∈ sessions) :
    (table.keepOnly (left.map Prod.fst)).Keeps left where
  holds p hp := (h.holds p (hleft p hp)).keepOnly (List.mem_map_of_mem hp)
  known _ hrow := of_decide_eq_true (List.mem_filter.mp hrow).2

end TagRows

namespace Store

/-! ## Tables beside a store -/

variable {s next : Store} {table : TagRows}

/-- The tags that sessions are stored with. -/
def tagLists (s : Store) : List (SessionId × List String) :=
  s.rows.map fun r => (r.id, r.tags)

theorem map_fst_tagLists (s : Store) : s.tagLists.map Prod.fst = s.ids := by
  rw [tagLists, List.map_map]
  rfl

/-- The table after a change, or the table before it if the change fails. -/
def tableAfter {α : Type} (table : TagRows) (f : Store → α → TagRows) :
    Except StoreError (Store × α) → TagRows
  | .ok (next, a) => f next a
  | .error _ => table

/-- The tags of spans, each with the number that its span was stored under. -/
def spanTags (ids : List SessionId) (spans : List Span) : List (SessionId × List String) :=
  ids.zip (spans.map fun span => span.entry.tags)

/-- What an operation on a store does to the table of tags: new sessions bring their tags, a tag is
added behind those of its session, and tags go with their sessions. -/
def Operation.applyTags (s : Store) (table : TagRows) : Operation → TagRows
  | .insert n => tableAfter table (fun _ id => table.addFrom id 0 n.tags) (s.insert n)
  | .addTag id tag =>
    tableAfter table (fun _ _ => table.addNext id tag)
      ((s.addTag id tag).map fun next => (next, ()))
  | .remove ids => tableAfter table (fun next _ => table.keepOnly next.ids) (s.removeAll ids)
  | .importSpans spans =>
    tableAfter table (fun _ ids => table.addAll (spanTags ids spans)) (s.importSpans spans)
  | .replace ids spans =>
    tableAfter table
      (fun _ done => (table.keepOnly (s.eraseAll ids).1.ids).addAll (spanTags done.ids done.spans))
      (s.replace ids spans)

/-- The store and the table after operations that start with nothing in either. -/
def tablesAfter (operations : List Operation) : Store × TagRows :=
  operations.foldl (fun t operation => (operation.apply t.1, operation.applyTags t.1 t.2))
    (empty, [])

/-- The table of tags after operations. -/
def tagTable (operations : List Operation) : TagRows :=
  (tablesAfter operations).2

/-! ## The table and the store agree -/

theorem tagLists_importSpans {spans : List Span} {all : List SessionId}
    (h : s.importSpans spans = .ok (next, all)) :
    next.tagLists = s.tagLists ++ (spanTags all spans).map fun p => (p.1, p.2.eraseDups) := by
  have hnew : (spans.mapIdx (rowAt s.lastId)).map (fun r => (r.id, r.tags)) =
      (spanTags all spans).map fun p => (p.1, p.2.eraseDups) := by
    rw [importSpans_ids h]
    apply List.ext_getElem
    · simp [spanTags, numbersTo]
    · intro k _ _
      simp [spanTags, numbersTo, rowAt, rowOf, sessionOf]
  rw [tagLists, (importSpans_ok h).1, List.map_append, hnew]
  rfl

/-- Storing spans adds their tags to the table. -/
theorem keeps_importSpans {spans : List Span} {all : List SessionId} (ho : s.Ordered)
    (h : table.Keeps s.tagLists) (hok : s.importSpans spans = .ok (next, all)) :
    (table.addAll (spanTags all spans)).Keeps next.tagLists := by
  have hlength : all.length ≤ (spans.map fun span => span.entry.tags).length := by
    simp [importSpans_ids hok, length_numbersTo]
  rw [tagLists_importSpans hok]
  refine h.addAll ?_
  -- the numbers of the spans are new, and no two of them are the same
  rw [map_fst_tagLists, spanTags, List.map_fst_zip hlength, importSpans_ids hok,
    ← ids_importSpans hok]
  exact (ho.importSpans hok).nodup_ids

/-- Removing sessions leaves the tags of the others in the table. -/
theorem keeps_eraseAll (hs : s.Nested) (h : table.Keeps s.tagLists) (ids : List SessionId) :
    (table.keepOnly (s.eraseAll ids).1.ids).Keeps (s.eraseAll ids).1.tagLists := by
  rw [← map_fst_tagLists]
  refine h.keepOnly fun p hp => ?_
  obtain ⟨r', hr', rfl⟩ := List.mem_map.mp hp
  obtain ⟨r, hr, hleft⟩ := (mem_eraseAll_iff hs).mp hr'
  rw [hleft.id_eq, hleft.tags_eq]
  exact List.mem_map_of_mem hr

/-- A tag that is given to a session is kept behind its tags, unless it is one of them. -/
theorem tags_tagged (id : SessionId) (tag : String) {r : Row} (h : r.tags.Nodup) :
    (tagged id tag r).tags = if r.id = id then (r.tags ++ [tag]).eraseDups else r.tags := by
  rw [eraseDups_snoc, eraseDups_of_nodup h]
  unfold tagged
  by_cases hid : r.id = id
  · by_cases htag : tag ∈ r.tags
    · simp [htag]
    · simp [hid, htag]
  · simp [hid]

theorem mem_ids_of_addTag {id : SessionId} {tag : String} (h : s.addTag id tag = .ok next) :
    id ∈ s.ids := by
  unfold addTag at h
  split at h
  · next hcontains =>
    obtain ⟨r, hr, hid⟩ := contains_iff.mp hcontains
    exact List.mem_map.mpr ⟨r, hr, SessionId.ext hid⟩
  · simp at h

/-- Giving a tag to a session adds it to the table behind the tags of the session. -/
theorem keeps_addTag {id : SessionId} {tag : String} (hs : s.Sound) (h : table.Keeps s.tagLists)
    (hok : s.addTag id tag = .ok next) : (table.addNext id tag).Keeps next.tagLists := by
  have hid : id ∈ s.tagLists.map Prod.fst := by
    rw [map_fst_tagLists]
    exact mem_ids_of_addTag hok
  have hdistinct : ∀ p ∈ s.tagLists, p.2.Nodup := by
    intro p hp
    obtain ⟨r, hr, rfl⟩ := List.mem_map.mp hp
    exact hs.tags r hr
  have hnext : next.tagLists =
      s.tagLists.map fun p => if p.1 = id then (p.1, (p.2 ++ [tag]).eraseDups) else p := by
    rw [addTag_ok hok, tagLists, tagLists, List.map_map, List.map_map]
    refine List.map_congr_left fun r hr => ?_
    simp only [Function.comp_apply, id_tagged, tags_tagged id tag (hs.tags r hr)]
    split <;> rfl
  rw [hnext]
  exact h.addNext hid hdistinct tag

/-- An operation keeps the agreement of the table with the store. -/
theorem keeps_applyTags (hs : s.Sound) (h : table.Keeps s.tagLists) (operation : Operation) :
    (operation.applyTags s table).Keeps (operation.apply s).tagLists := by
  have ho := hs.nested.ordered
  cases operation with
  | insert n =>
    rw [Operation.apply, Operation.applyTags]
    cases hok : s.insert n with
    | error e => exact h
    | ok pair =>
      obtain ⟨next, id⟩ := pair
      obtain ⟨rfl, rfl⟩ := insert_ok hok
      have hnew : s.nextId ∉ s.tagLists.map Prod.fst := by
        rw [map_fst_tagLists]
        intro hmem
        obtain ⟨r, hr, hid⟩ := List.mem_map.mp hmem
        have hle := ho.bounded r hr
        rw [hid] at hle
        simp only [nextId] at hle
        omega
      have hadded := h.addFrom hnew n.tags
      show (table.addFrom s.nextId 0 n.tags).Keeps _
      rwa [settled, tagLists, List.map_append]
  | addTag id tag =>
    rw [Operation.apply, Operation.applyTags]
    cases hok : s.addTag id tag with
    | error e => exact h
    | ok next => exact keeps_addTag hs h hok
  | remove ids =>
    rw [Operation.apply, Operation.applyTags]
    cases hok : s.removeAll ids with
    | error e => exact h
    | ok pair =>
      obtain rfl := removeAll_ok hok
      exact keeps_eraseAll hs.nested h ids
  | importSpans spans =>
    rw [Operation.apply, Operation.applyTags]
    cases hok : s.importSpans spans with
    | error e => exact h
    | ok pair => exact keeps_importSpans ho h hok
  | replace ids spans =>
    rw [Operation.apply, Operation.applyTags]
    cases hok : s.replace ids spans with
    | error e => exact h
    | ok pair =>
      obtain ⟨resolved, all, -, hstored, hdone⟩ := steps_of_replace hok
      have hleft := keeps_eraseAll hs.nested h ids
      have hall := keeps_importSpans (ho.eraseAll ids) hleft hstored
      simp only [tableAfter, settled, hdone]
      exact hall

/-- After any operations the table says the same as the store. -/
theorem keeps_tagTable (operations : List Operation) :
    (tagTable operations).Keeps (after operations).tagLists := by
  -- by induction on the operations that are left, from any store with a table that agrees with it
  have hall : ∀ (rest : List Operation) (s : Store) (table : TagRows), s.Sound →
      table.Keeps s.tagLists →
      (rest.foldl (fun t operation => (operation.apply t.1, operation.applyTags t.1 t.2))
        (s, table)).2.Keeps (rest.foldl Operation.apply s).tagLists := by
    intro rest
    induction rest with
    | nil =>
      intro s table _ h
      exact h
    | cons operation rest ih =>
      intro s table hs h
      exact ih _ _ (hs.apply operation) (keeps_applyTags hs h operation)
  exact hall operations empty [] Sound.empty TagRows.Keeps.empty

/-- The table holds the tags of every stored session. -/
theorem holds_tagTable {operations : List Operation} {r : Row}
    (hr : r ∈ (after operations).rows) : (tagTable operations).Holds r.id r.tags :=
  (keeps_tagTable operations).holds (r.id, r.tags) (List.mem_map_of_mem hr)

/-- The tags of a stored session, read from the table, are those that it is stored with. -/
theorem tagsOf_tagTable {operations : List Operation} {r : Row}
    (hr : r ∈ (after operations).rows) : (tagTable operations).tagsOf r.id = r.tags :=
  (holds_tagTable hr).tagsOf_eq

end Store

end Daybook
