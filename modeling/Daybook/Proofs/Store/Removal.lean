import Daybook.Proofs.Store.Integrity
import Mathlib.Data.Nat.PSub

/-!
# What a removal does

Sessions that are removed together are taken away with all that interrupted them, directly or
through others, and with their tags; links to what goes are cleared; nothing else changes. So it
does not matter in which order the sessions are named, nor how often. A removal fails only when
interruptions are nested too deep, and then it changes nothing.

* `removeAll_effect` : what is left when sessions are removed, and when nothing is removed.
* `removeAll_effect_of_short` : stores in which nothing is nested too deep.
* `removeAll_tower_iff` : removals from sessions each of which interrupted the one before.
* `removeAll_tower_order` : the order can decide whether a removal fails.
-/

namespace Daybook.Store

variable {s next : Store} {ids ids' : List SessionId} {r r' : Row} {n : Nat}

/-! ## What is left -/

/-- The store `next` is what is left of the store `s` when sessions are removed. -/
structure Removes (s : Store) (ids : List SessionId) (next : Store) : Prop where
  rows : ∀ row, row ∈ next.rows ↔ ∃ old ∈ s.rows, s.LeftOf ids old row
  tags : ∀ id tag, (id, tag) ∈ next.tagRows ↔ (id, tag) ∈ s.tagRows ∧ id ∈ next.ids
  ordered : next.Ordered
  lastId : next.lastId = s.lastId

theorem mem_tagRows_iff {id : SessionId} {tag : String} :
    (id, tag) ∈ s.tagRows ↔ ∃ r ∈ s.rows, r.id = id ∧ tag ∈ r.tags := by
  simp only [tagRows, List.mem_flatMap, List.mem_map, Prod.mk.injEq]
  constructor
  · rintro ⟨r, hr, tag, htag, rfl, rfl⟩
    exact ⟨r, hr, rfl, htag⟩
  · rintro ⟨r, hr, rfl, htag⟩
    exact ⟨r, hr, tag, htag, rfl, rfl⟩

theorem LeftOf.tags_eq (h : s.LeftOf ids r r') : r'.tags = r.tags := by
  have htags : r'.core.tags = r.core.tags := congrArg Row.tags h.core
  exact htags

/-- The tags that are left are those of the sessions that are left. -/
theorem mem_tagRows_iff_of_leftOf (ho : s.Ordered)
    (hrows : ∀ row, row ∈ next.rows ↔ ∃ old ∈ s.rows, s.LeftOf ids old row) (id : SessionId)
    (tag : String) : (id, tag) ∈ next.tagRows ↔ (id, tag) ∈ s.tagRows ∧ id ∈ next.ids := by
  rw [mem_tagRows_iff, mem_tagRows_iff]
  constructor
  · rintro ⟨row, hrow, rfl, htag⟩
    obtain ⟨old, hold, hleft⟩ := (hrows row).mp hrow
    exact ⟨⟨old, hold, hleft.id_eq.symm, hleft.tags_eq ▸ htag⟩, List.mem_map_of_mem hrow⟩
  · rintro ⟨⟨old, hold, rfl, htag⟩, hid⟩
    obtain ⟨row, hrow, heq⟩ := List.mem_map.mp hid
    -- the session that is left under the number is the one that had the tag
    obtain ⟨old', hold', hleft⟩ := (hrows row).mp hrow
    obtain rfl : old' = old :=
      ho.eq_of_id hold' hold (congrArg SessionId.value (hleft.id_eq.symm.trans heq))
    exact ⟨row, hrow, heq, hleft.tags_eq.symm ▸ htag⟩

theorem removes_eraseAll (h : s.Nested) (ids : List SessionId) :
    s.Removes ids (s.eraseAll ids).1 where
  rows _ := mem_eraseAll_iff h
  tags := mem_tagRows_iff_of_leftOf h.ordered fun _ => mem_eraseAll_iff h
  ordered := h.ordered.eraseAll ids
  lastId := lastId_eraseAll s ids

/-! ## The order of removals -/

/-- What goes and what is left is decided by which sessions are named. -/
theorem LeftOf.congr (hsame : ∀ id, id ∈ ids ↔ id ∈ ids') (h : s.LeftOf ids r r') :
    s.LeftOf ids' r r' := by
  have htaken : ∀ t, s.Taken ids t ↔ s.Taken ids' t := fun t => by simp only [Taken, hsame]
  have hloses : s.Loses ids r ↔ s.Loses ids' r := by simp only [Loses, htaken]
  exact ⟨fun hgone => h.stays ((htaken r).mpr hgone), h.core,
    fun hlost => h.cleared (hloses.mpr hlost), fun hkept => h.kept (mt hloses.mp hkept)⟩

/-- Removing the same sessions leaves the same store, whatever the order and however often one of
them is named. -/
theorem Removes.unique {next' : Store} (h : s.Removes ids next) (h' : s.Removes ids' next')
    (hsame : ∀ id, id ∈ ids ↔ id ∈ ids') : next = next' := by
  have hmem : ∀ row, row ∈ next.rows ↔ row ∈ next'.rows := by
    intro row
    rw [h.rows, h'.rows]
    constructor
    · rintro ⟨old, hold, hleft⟩
      exact ⟨old, hold, hleft.congr hsame⟩
    · rintro ⟨old, hold, hleft⟩
      exact ⟨old, hold, hleft.congr fun id => (hsame id).symm⟩
  have hrows : next.rows = next'.rows :=
    eq_of_pairwise_of_mem_iff (fun a b hab hba => absurd hba (Int.lt_asymm hab))
      h.ordered.increasing h'.ordered.increasing hmem
  have hlast : next.lastId = next'.lastId := h.lastId.trans h'.lastId.symm
  cases next
  cases next'
  cases hrows
  cases hlast
  rfl

/-! ## Removals -/

theorem removeAll_eq_tooDeep_iff (h : s.Nested) :
    s.removeAll ids = .error .tooDeep ↔ s.ReachesTooDeep ids := by
  rw [← goesTooDeep_iff h, removeAll]
  cases s.goesTooDeep ids <;> simp

/-- Removing sessions of a store that operations reach fails exactly when it reaches too deep.
Otherwise it leaves what is left when the sessions go with all that is below them, and removing
the same sessions in another order leaves the same, if it succeeds. -/
theorem removeAll_effect (operations : List Operation) (ids : List SessionId) :
    let s := after operations
    (s.removeAll ids = .error .tooDeep ∧ s.ReachesTooDeep ids) ∨
      ∃ next count, s.removeAll ids = .ok (next, count) ∧ ¬ s.ReachesTooDeep ids ∧
        s.Removes ids next ∧
        ∀ ids' next' count', (∀ id, id ∈ ids ↔ id ∈ ids') →
          s.removeAll ids' = .ok (next', count') → next' = next := by
  intro s
  have hn : s.Nested := (sound_after operations).nested
  by_cases hdeep : s.goesTooDeep ids = true
  · exact .inl ⟨removeAll_of_deep hdeep, (goesTooDeep_iff hn).mp hdeep⟩
  · have hshallow := removeAll_of_shallow (eq_false_of_ne_true hdeep)
    refine .inr ⟨_, _, hshallow, fun hreaches => hdeep ((goesTooDeep_iff hn).mpr hreaches),
      removes_eraseAll hn ids, ?_⟩
    intro ids' next' count' hsame hok
    obtain rfl : (s.eraseAll ids').1 = next' := congrArg Prod.fst (removeAll_ok hok)
    exact ((removes_eraseAll hn ids).unique (removes_eraseAll hn ids') hsame).symm

/-- In a short store nothing is nested too deep, since interruptions stand after what they
interrupt. -/
theorem not_reachesTooDeep_of_short (h : s.Nested) (hshort : s.rows.length ≤ levelLimit) :
    ¬ s.ReachesTooDeep ids := by
  rintro ⟨earlier, id, later, -, r, hr, ⟨⟨n, hlevel⟩, hfar⟩, -⟩
  obtain ⟨i, hi⟩ := List.getElem?_of_mem hr
  obtain ⟨m, hm, hlevel'⟩ := hlevel.exists_le h hi
  have hlt := hfar m hlevel'
  have hlength := (List.getElem?_eq_some_iff.mp hi).1
  omega

/-- Sessions of a short store are always removed. -/
theorem removeAll_effect_of_short (operations : List Operation) (ids : List SessionId)
    (hshort : (after operations).rows.length ≤ levelLimit) :
    ∃ next count, (after operations).removeAll ids = .ok (next, count) ∧
      (after operations).Removes ids next := by
  have hn : (after operations).Nested := (sound_after operations).nested
  rcases removeAll_effect operations ids with ⟨-, hdeep⟩ | ⟨next, count, hok, -, hremoves, -⟩
  · exact absurd hdeep (not_reachesTooDeep_of_short hn hshort)
  · exact ⟨next, count, hok, hremoves⟩

/-! ## Towers of interruptions -/

/-- The spans with each made an interruption of the one before. -/
def tower (spans : List Span) : List Span :=
  spans.mapIdx fun k s => { s with parent := k.ppred, continues := none }

/-- The store in which nothing but the spans of a tower was put. -/
def ofTower (spans : List Span) : Store :=
  after [.importSpans (tower spans)]

variable {spans : List Span} {i j k : Nat} {span : Span}

theorem links_tower (h : (tower spans)[k]? = some span) :
    span.parent = k.ppred ∧ span.continues = none := by
  rw [tower, List.getElem?_mapIdx] at h
  obtain ⟨_, -, rfl⟩ := Option.map_eq_some_iff.mp h
  exact ⟨rfl, rfl⟩

theorem isStorable_tower (h : (tower spans)[k]? = some span) : empty.IsStorable k span := by
  obtain ⟨hparent, hcontinues⟩ := links_tower h
  refine ⟨⟨?_, by simp [hcontinues]⟩, by simp [hcontinues]⟩
  intro target htarget
  have hsucc := Nat.ppred_eq_some.mp (hparent.symm.trans htarget)
  omega

/-- A tower can be stored, and its sessions stand in the order of its spans. -/
theorem rows_ofTower (spans : List Span) :
    (ofTower spans).rows = (tower spans).mapIdx (rowAt 0) := by
  obtain ⟨⟨next, all⟩, hok⟩ := exists_importSpans fun k s (h : (tower spans)[k]? = some s) =>
    isStorable_tower h
  show (empty.settled (empty.importSpans (tower spans))).rows = _
  rw [hok]
  exact (importSpans_ok hok).1

theorem mem_rows_ofTower :
    r ∈ (ofTower spans).rows ↔ ∃ k span, (tower spans)[k]? = some span ∧ rowAt 0 k span = r := by
  rw [rows_ofTower]
  exact mem_mapIdx_rowAt

theorem parent_rowAt_iff (h : (tower spans)[k]? = some span) :
    (rowAt 0 k span).parent = some (numberAt 0 i).value ↔ i + 1 = k := by
  show (span.parent.map (numberAt 0)).map SessionId.value = _ ↔ _
  rw [(links_tower h).1]
  cases k with
  | zero => simp
  | succ k =>
    rw [Nat.ppred_succ, Option.map_some, Option.map_some, Option.some.injEq]
    simp only [numberAt]
    omega

/-- In a tower, a session is as many levels below an earlier one as it stands after it. -/
theorem isLevel_ofTower_iff (h : (tower spans)[k]? = some span) :
    (ofTower spans).IsLevel (numberAt 0 j).value n (rowAt 0 k span) ↔ 0 < n ∧ j + n = k := by
  constructor
  · intro hlevel
    generalize hrow : rowAt 0 k span = row at hlevel
    induction hlevel generalizing k span with
    | direct hparent =>
      subst hrow
      exact ⟨Nat.one_pos, (parent_rowAt_iff h).mp hparent⟩
    | through habove hparent _ ih =>
      subst hrow
      obtain ⟨i, above, hi, rfl⟩ := mem_rows_ofTower.mp habove
      obtain ⟨-, hplace⟩ := ih hi rfl
      have hnext : i + 1 = k := (parent_rowAt_iff h).mp hparent
      omega
  · rintro ⟨hpos, rfl⟩
    induction n generalizing span with
    | zero => exact absurd hpos (Nat.lt_irrefl 0)
    | succ n ih =>
      rcases Nat.eq_zero_or_pos n with rfl | hpos
      · exact .direct ((parent_rowAt_iff h).mpr rfl)
      · -- the session one level above stands just before
        have hlt := (List.getElem?_eq_some_iff.mp h).1
        have habove := List.getElem?_eq_getElem (show j + n < (tower spans).length by omega)
        exact .through (mem_rows_ofTower.mpr ⟨_, _, habove, rfl⟩)
          ((parent_rowAt_iff h).mpr rfl) (ih hpos habove)

theorem isBeyond_ofTower_iff (h : (tower spans)[k]? = some span) :
    (ofTower spans).IsBeyond (numberAt 0 j).value (rowAt 0 k span) ↔ j + levelLimit < k := by
  constructor
  · rintro ⟨⟨n, hlevel⟩, hdeep⟩
    have hfar := hdeep n hlevel
    obtain ⟨-, hplace⟩ := (isLevel_ofTower_iff h).mp hlevel
    omega
  · intro hfar
    refine ⟨⟨k - j, (isLevel_ofTower_iff h).mpr (by omega)⟩, fun n hlevel => ?_⟩
    obtain ⟨-, hplace⟩ := (isLevel_ofTower_iff h).mp hlevel
    omega

/-- With a session of a tower go all later ones. -/
theorem taken_ofTower_iff (h : (tower spans)[k]? = some span) {places : List Nat} :
    (ofTower spans).Taken (places.map (numberAt 0)) (rowAt 0 k span) ↔ ∃ i ∈ places, i ≤ k := by
  constructor
  · rintro (hmem | ⟨_, hid, n, hlevel⟩)
    · obtain ⟨i, hi, heq⟩ := List.mem_map.mp hmem
      exact ⟨i, hi, Nat.le_of_eq (numberAt_inj.mp heq)⟩
    · obtain ⟨i, hi, rfl⟩ := List.mem_map.mp hid
      obtain ⟨-, hplace⟩ := (isLevel_ofTower_iff h).mp hlevel
      exact ⟨i, hi, by omega⟩
  · rintro ⟨i, hi, hle⟩
    have hmem : numberAt 0 i ∈ places.map (numberAt 0) := List.mem_map_of_mem hi
    rcases Nat.eq_or_lt_of_le hle with rfl | hlt
    · exact .inl hmem
    · exact .inr ⟨_, hmem, k - i, (isLevel_ofTower_iff h).mpr (by omega)⟩

/-- Removing sessions of a tower fails exactly when, at the turn of one of them, a session that is
further after it than the limit is still there. -/
theorem removeAll_tower_iff (spans : List Span) (places : List Nat) :
    (ofTower spans).removeAll (places.map (numberAt 0)) = .error .tooDeep ↔
      ∃ earlier j later, places = earlier ++ j :: later ∧
        ∃ k < spans.length, j + levelLimit < k ∧ ∀ i ∈ earlier, k < i := by
  have hn : (ofTower spans).Nested := (sound_after _).nested
  have hlength : (tower spans).length = spans.length := List.length_mapIdx
  rw [removeAll_eq_tooDeep_iff hn]
  constructor
  · rintro ⟨_, _, _, hplaces, r, hr, hbeyond, hstays⟩
    obtain ⟨earlier, others, rfl, rfl, hothers⟩ := List.map_eq_append_iff.mp hplaces
    obtain ⟨j, later, rfl, rfl, rfl⟩ := List.map_eq_cons_iff.mp hothers
    obtain ⟨k, span, hspan, rfl⟩ := mem_rows_ofTower.mp hr
    refine ⟨earlier, j, later, rfl, k, hlength ▸ (List.getElem?_eq_some_iff.mp hspan).1,
      (isBeyond_ofTower_iff hspan).mp hbeyond, fun i hi => ?_⟩
    exact Nat.lt_of_not_le fun hle => hstays ((taken_ofTower_iff hspan).mpr ⟨i, hi, hle⟩)
  · rintro ⟨earlier, j, later, rfl, k, hk, hfar, hbefore⟩
    have hspan := List.getElem?_eq_getElem (hlength.symm ▸ hk)
    refine ⟨earlier.map (numberAt 0), numberAt 0 j, later.map (numberAt 0), List.map_append, _,
      mem_rows_ofTower.mpr ⟨k, _, hspan, rfl⟩, (isBeyond_ofTower_iff hspan).mpr hfar, ?_⟩
    intro htaken
    obtain ⟨i, hi, hle⟩ := (taken_ofTower_iff hspan).mp htaken
    exact Nat.not_lt_of_le hle (hbefore i hi)

/-- The first session of a tower is removed, with all others, unless the tower is too high. -/
theorem removeAll_tower_first (spans : List Span) :
    (ofTower spans).removeAll [numberAt 0 0] = .error .tooDeep ↔
      levelLimit + 1 < spans.length := by
  refine (removeAll_tower_iff spans [0]).trans ⟨?_, fun hhigh => ?_⟩
  · rintro ⟨_, _, _, -, k, hk, hfar, -⟩
    omega
  · exact ⟨[], 0, [], rfl, levelLimit + 1, hhigh, by omega, by simp⟩

/-- The order can decide whether a removal fails: the first session of a high tower is removed
after one in the middle, but not before it. -/
theorem removeAll_tower_order (spans : List Span) (hhigh : levelLimit + 1 < spans.length)
    (hbelow : j ≤ levelLimit + 1) (habove : spans.length ≤ j + levelLimit + 1) :
    (ofTower spans).removeAll [numberAt 0 0, numberAt 0 j] = .error .tooDeep ∧
      (ofTower spans).removeAll [numberAt 0 j, numberAt 0 0] ≠ .error .tooDeep := by
  constructor
  · refine (removeAll_tower_iff spans [0, j]).mpr ⟨[], 0, [j], rfl, levelLimit + 1, hhigh, ?_⟩
    exact ⟨by omega, by simp⟩
  · intro hdeep
    obtain ⟨earlier, i, later, hplaces, k, hk, hfar, hbefore⟩ :=
      (removeAll_tower_iff spans [j, 0]).mp hdeep
    cases earlier with
    | nil =>
      obtain ⟨rfl, -⟩ := List.cons.inj hplaces
      omega
    | cons first earlier =>
      obtain ⟨rfl, -⟩ := List.cons.inj hplaces
      have hlt := hbefore j List.mem_cons_self
      omega

end Daybook.Store
