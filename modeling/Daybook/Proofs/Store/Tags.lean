import Daybook.Proofs.Store.Conflicts
import Daybook.Proofs.Store.TagTable

/-!
# The tags of a session

A session is stored with the tags that it is given, without repeats, and every tag that it is given
later comes behind them unless it has it. Nothing that happens to other sessions changes this, and
the number of a session that is gone is not used again, so as long as a session is stored all of
this is there to be read.

* `Operation.exists_row` : what an operation does to a single row.
* `session?_tags` : the tags of a session after any operations.
-/

namespace Daybook

/-! ## A row at a later time -/

/-- The row `later` is the row `r` at a later time, when tags were given to its session. -/
structure Row.BecomesWith (r later : Row) (tags : List String) : Prop where
  id : later.id = r.id
  tags : later.tags = (r.tags ++ tags).eraseDups
  kept : r.IsKept → later.IsKept

namespace Row.BecomesWith

theorem refl {r : Row} (h : r.tags.Nodup) : r.BecomesWith r [] where
  id := rfl
  tags := by rw [List.append_nil, eraseDups_of_nodup h]
  kept hkept := hkept

theorem trans {a b c : Row} {first second : List String} (h : a.BecomesWith b first)
    (h' : b.BecomesWith c second) : a.BecomesWith c (first ++ second) where
  id := h'.id.trans h.id
  tags := by rw [h'.tags, h.tags, eraseDups_eraseDups_append, List.append_assoc]
  kept hkept := h'.kept (h.kept hkept)

end Row.BecomesWith

namespace Store

variable {s next : Store} {r r' : Row} {ids : List SessionId} {id : SessionId} {n : NewSession}

theorem isKept_tagged (id : SessionId) (tag : String) (h : r.IsKept) :
    (tagged id tag r).IsKept := by
  obtain ⟨session, hbounds, rfl⟩ := h
  unfold tagged
  split
  · exact ⟨{ session with tags := session.tags ++ [tag] }, hbounds, rfl⟩
  · exact ⟨session, hbounds, rfl⟩

theorem LeftOf.isKept (h : s.LeftOf ids r r') (hr : r.IsKept) : r'.IsKept := by
  obtain ⟨session, hbounds, rfl⟩ := hr
  by_cases hloses : s.Loses ids session.row
  · refine ⟨{ session with continues := none }, hbounds, Row.eq_of_core h.core ?_⟩
    exact h.cleared hloses
  · exact ⟨session, hbounds, Row.eq_of_core h.core (h.kept hloses)⟩

theorem LeftOf.becomesWith (h : s.LeftOf ids r r') (hr : r.tags.Nodup) : r.BecomesWith r' [] where
  id := h.id_eq
  tags := by rw [List.append_nil, eraseDups_of_nodup hr, h.tags_eq]
  kept := h.isKept

theorem becomesWith_tagged (tag : String) (h : r.tags.Nodup) :
    r.BecomesWith (tagged id tag r) (if id = r.id then [tag] else []) where
  id := id_tagged id tag r
  tags := by
    rw [tags_tagged id tag h]
    by_cases hid : id = r.id
    · rw [if_pos hid.symm, if_pos hid]
    · rw [if_neg (Ne.symm hid), if_neg hid, List.append_nil, eraseDups_of_nodup h]
  kept := isKept_tagged id tag

/-! ## What an operation does to a row -/

/-- The tags that an operation gives to a session which is stored. -/
def Operation.tagsFor (id : SessionId) : Operation → List String
  | .addTag other tag => if other = id then [tag] else []
  | .insert _ | .remove _ | .importSpans _ | .replace _ _ => []

theorem mem_rows_of_insert (h : s.insert n = .ok (next, id)) (hr' : r' ∈ next.rows)
    (hold : r'.id.value ≤ s.lastId) : r' ∈ s.rows := by
  obtain ⟨rfl, -⟩ := insert_ok h
  rcases List.mem_append.mp hr' with hr | hnew
  · exact hr
  · obtain rfl := List.mem_singleton.mp hnew
    simp only [rowOf, nextId] at hold
    omega

theorem mem_rows_of_importSpans {spans : List Span} {all : List SessionId}
    (h : s.importSpans spans = .ok (next, all)) (hr' : r' ∈ next.rows)
    (hold : r'.id.value ≤ s.lastId) : r' ∈ s.rows := by
  rw [(importSpans_ok h).1] at hr'
  rcases List.mem_append.mp hr' with hr | hnew
  · exact hr
  · obtain ⟨k, span, -, rfl⟩ := mem_mapIdx_rowAt.mp hnew
    simp only [rowAt, rowOf, numberAt] at hold
    omega

theorem Operation.Gives.exists_row {operation : Operation} (h : operation.Gives s next)
    (hs : s.Sound) (hr' : r' ∈ next.rows) (hold : r'.id.value ≤ s.lastId) :
    ∃ r ∈ s.rows, r.BecomesWith r' (operation.tagsFor r.id) := by
  cases h with
  | insert hok =>
    have hr := mem_rows_of_insert hok hr' hold
    exact ⟨r', hr, .refl (hs.tags r' hr)⟩
  | addTag hok =>
    obtain rfl := addTag_ok hok
    obtain ⟨r, hr, rfl⟩ := List.mem_map.mp hr'
    exact ⟨r, hr, becomesWith_tagged _ (hs.tags r hr)⟩
  | remove =>
    obtain ⟨r, hr, hleft⟩ := (mem_eraseAll_iff hs.nested).mp hr'
    exact ⟨r, hr, hleft.becomesWith (hs.tags r hr)⟩
  | importSpans hok =>
    have hr := mem_rows_of_importSpans hok hr' hold
    exact ⟨r', hr, .refl (hs.tags r' hr)⟩
  | replace hok =>
    obtain ⟨resolved, all, -, hstored⟩ := replace_ok hok
    have hmiddle := mem_rows_of_importSpans hstored hr' (by rwa [lastId_eraseAll])
    obtain ⟨r, hr, hleft⟩ := (mem_eraseAll_iff hs.nested).mp hmiddle
    exact ⟨r, hr, hleft.becomesWith (hs.tags r hr)⟩

/-- Where an operation changes nothing, no stored session is given a tag that it does not have. -/
theorem becomesWith_of_apply_eq {operation : Operation} (h : operation.apply s = s) (hs : s.Sound)
    (hr : r ∈ s.rows) : r.BecomesWith r (operation.tagsFor r.id) := by
  have hsame := Row.BecomesWith.refl (hs.tags r hr)
  cases operation with
  | addTag id tag =>
    rw [Operation.tagsFor]
    split
    · next heq =>
      -- the session is stored, so the tag is given to it and changes nothing
      have hcontains : s.contains id.value = true := contains_iff.mpr ⟨r, hr, heq ▸ rfl⟩
      have hrows : s.rows.map (tagged id tag) = s.rows.map fun t => t := by
        rw [Operation.apply, Store.addTag, if_pos hcontains] at h
        rw [List.map_id']
        exact congrArg Store.rows h
      have htagged : r.BecomesWith (tagged id tag r) (if id = r.id then [tag] else []) :=
        becomesWith_tagged tag (hs.tags r hr)
      rw [if_pos heq] at htagged
      rwa [List.map_inj_left.mp hrows r hr] at htagged
    · exact hsame
  | insert n => exact hsame
  | remove ids => exact hsame
  | importSpans spans => exact hsame
  | replace ids spans => exact hsame

/-- A row with a number that was given out before an operation was there before it, and its session
has the tags that it had and those that the operation gives it. -/
theorem Operation.exists_row (hs : s.Sound) (operation : Operation)
    (hr' : r' ∈ (operation.apply s).rows) (hold : r'.id.value ≤ s.lastId) :
    ∃ r ∈ s.rows, r.BecomesWith r' (operation.tagsFor r.id) := by
  rcases operation.gives_or_same s with hgives | hsame
  · exact hgives.exists_row hs hr' hold
  · rw [hsame] at hr'
    exact ⟨r', hr', becomesWith_of_apply_eq hsame hs hr'⟩

/-- The same is true of any operations: together they give a session the tags that each of them
gives it. -/
theorem exists_row_of_foldl (hs : s.Sound) (operations : List Operation)
    (hr' : r' ∈ (operations.foldl Operation.apply s).rows) (hold : r'.id.value ≤ s.lastId) :
    ∃ r ∈ s.rows, r.BecomesWith r' (operations.flatMap (Operation.tagsFor r.id)) := by
  induction operations generalizing s with
  | nil => exact ⟨r', hr', .refl (hs.tags r' hr')⟩
  | cons operation rest ih =>
    have hlater := lastId_le_apply s operation
    obtain ⟨middle, hmiddle, hrest⟩ := ih (hs.apply operation) hr' (by omega)
    rw [hrest.id] at hold
    obtain ⟨r, hr, hfirst⟩ := operation.exists_row hs hmiddle hold
    rw [hfirst.id] at hrest
    exact ⟨r, hr, hfirst.trans hrest⟩

/-! ## The tags of a session -/

/-- A session that is stored and then not removed has the tags that it was stored with and those
that it was given later, in this order and each of them once. The table of tags, read by positions,
says the same. -/
theorem session?_tags (earlier later : List Operation)
    (hbounds : IsWithinCalendar n.start n.stop)
    (hinsert : (after earlier).insert n = .ok (next, id))
    (hstored : id ∈ (after (earlier ++ .insert n :: later)).ids) :
    ∃ session, (after (earlier ++ .insert n :: later)).session? id = .ok (some session) ∧
      session.tags = (n.tags ++ later.flatMap (Operation.tagsFor id)).eraseDups ∧
      (tagTable (earlier ++ .insert n :: later)).tagsOf id = session.tags := by
  have hsound := sound_after (earlier ++ .insert n :: later)
  obtain ⟨r', hr', rfl⟩ := List.mem_map.mp hstored
  have htable := tagsOf_tagTable hr'
  have hnext : (Operation.insert n).apply (after earlier) = next := by
    rw [Operation.apply, hinsert]
    rfl
  have hafter : after (earlier ++ .insert n :: later) = later.foldl Operation.apply next := by
    rw [after, List.foldl_append, List.foldl_cons, ← hnext]
    rfl
  rw [hafter] at hr' hsound ⊢
  have hfirst : next.Sound := hnext ▸ (sound_after earlier).apply _
  obtain ⟨hrows, hid⟩ := insert_ok hinsert
  -- the row is that of the new session at a later time
  have hnew : rowOf r'.id n ∈ next.rows := by simp [hrows, hid]
  have hle : r'.id.value ≤ next.lastId :=
    hfirst.nested.ordered.bounded (rowOf r'.id n) hnew
  obtain ⟨r, hr, hbecomes⟩ := exists_row_of_foldl hfirst later hr' hle
  obtain rfl : r = rowOf r'.id n :=
    hfirst.nested.ordered.eq_of_id hr hnew (congrArg SessionId.value hbecomes.id.symm)
  obtain ⟨session, hsession⟩ := (hbecomes.kept (isKept_rowOf _ hbounds)).exists_session
  obtain ⟨-, -, htags⟩ := session_ok hsession
  refine ⟨session, (session?_eq_ok_some_iff hsound.nested.ordered).mpr ⟨r', hr', rfl, hsession⟩, ?_,
    htable.trans htags.symm⟩
  rw [htags, hbecomes.tags]
  exact eraseDups_eraseDups_append n.tags _

/-! ## A session among others -/

theorem isCivil_teaDay : IsCivil 2025 5 2 := by decide

theorem isSome_teaTime : (TimeOfDay.ofParts? 16 0 0).isSome := by decide

def teaTime : DateTime :=
  ⟨⟨2025, 5, 2, isCivil_teaDay⟩, (TimeOfDay.ofParts? 16 0 0).get isSome_teaTime⟩

def teaId : SessionId := numberAt 0 0

def sortingId : SessionId := numberAt 0 1

/-- Work with a tag that is given twice. -/
def sorting : NewSession :=
  { description := "Sort", tags := ["post", "post", "desk"], start := teaTime, state := .working }

/-- An earlier session with a tag of its own. -/
def beforeSorting : List Operation :=
  [.insert { description := "Tea", tags := ["desk"], start := teaTime, state := .paused }]

/-- New and repeated tags for the work, and tags for the other session until it is removed. -/
def afterSorting : List Operation :=
  [.addTag sortingId "bills", .addTag teaId "bills", .addTag sortingId "desk", .remove [teaId],
    .addTag sortingId "attic"]

/-- The tag that was given twice leaves a position free in the table. -/
theorem session?_tags_sorting :
    tagTable (beforeSorting ++ .insert sorting :: afterSorting) =
      [⟨sortingId, "post", 0⟩, ⟨sortingId, "desk", 2⟩, ⟨sortingId, "bills", 3⟩,
        ⟨sortingId, "attic", 4⟩] ∧
    ∃ session, (after (beforeSorting ++ .insert sorting :: afterSorting)).session? sortingId =
        .ok (some session) ∧
      session.tags = ["post", "desk", "bills", "attic"] := by
  have hinsert : (after beforeSorting).insert sorting =
      .ok (Operation.apply (after beforeSorting) (.insert sorting), sortingId) := by
    decide +kernel
  obtain ⟨session, hsession, htags, -⟩ :=
    session?_tags beforeSorting afterSorting (by decide +kernel) hinsert (by decide +kernel)
  refine ⟨by decide +kernel, session, hsession, ?_⟩
  rw [htags]
  decide +kernel

end Store

end Daybook
