import Daybook.Proofs.Store.Rows

/-!
# What goes with a session

A removal takes the sessions that interrupted the removed one, directly or through others, and
clears the links to all that goes. Removing sessions one after the other comes to the same as if
everything went at once: what goes is decided by the store before the first removal.

* `Store.Nested` : every session that was interrupted is stored, and before its interruption.
* `Store.mem_eraseAll_iff` : the rows that are left when sessions are removed.
* `Store.goesTooDeep_iff` : which removals reach too deep.
* `Store.AreTop.goesTooDeep_iff` : the same for sessions at the top level, one after the other.
-/

namespace Daybook

theorem Row.eq_of_core {a b : Row} (h : a.core = b.core) (hlink : a.continues = b.continues) :
    a = b := by
  cases a
  cases b
  simp_all [Row.core]

namespace Store

variable {s : Store} {v : Int} {n : Nat} {ids : List SessionId} {r r' : Row}

theorem mem_of_row?_eq_some (h : s.row? v = some r) : r ∈ s.rows ∧ r.id.value = v :=
  ⟨List.mem_of_find?_eq_some h, by simpa using List.find?_some h⟩

/-- Two rows with one number are the same row. -/
theorem Ordered.eq_of_id {a b : Row} (h : s.Ordered) (ha : a ∈ s.rows) (hb : b ∈ s.rows)
    (hid : a.id.value = b.id.value) : a = b :=
  eq_of_increasing h.increasing ha hb hid

/-! ## Interruptions -/

/-- The row is `n` levels below the session with a number: it interrupted the session itself, or
a session one level less below it. -/
inductive IsLevel (s : Store) (v : Int) : Nat → Row → Prop where
  | direct {r : Row} (h : r.parent = some v) : IsLevel s v 1 r
  | through {n : Nat} {r above : Row} (habove : above ∈ s.rows)
      (h : r.parent = some above.id.value) (hlevel : IsLevel s v n above) :
      IsLevel s v (n + 1) r

/-- The row interrupted the session with a number, directly or through others. -/
def Below (s : Store) (v : Int) (r : Row) : Prop :=
  ∃ n, s.IsLevel v n r

/-- Going up a number of times finds what is at most so many levels below. -/
theorem isBelow_iff (ho : s.Ordered) {fuel : Nat} :
    s.isBelow v fuel r = true ↔ ∃ n ≤ fuel, s.IsLevel v n r := by
  induction fuel generalizing r with
  | zero =>
    constructor
    · intro h
      exact Bool.noConfusion h
    · rintro ⟨n, hn, hlevel⟩
      cases hlevel <;> omega
  | succ fuel ih =>
    -- one step up leads to the session itself, or to a row one level less below it
    unfold isBelow
    constructor
    · intro h
      split at h
      · exact Bool.noConfusion h
      · next parent hparent =>
        rcases (Bool.or_eq_true _ _).mp h with h | h
        · obtain rfl := eq_of_beq h
          exact ⟨1, by omega, .direct hparent⟩
        · split at h
          · next above habove =>
            obtain ⟨hmem, hid⟩ := mem_of_row?_eq_some habove
            obtain ⟨n, hn, hlevel⟩ := ih.mp h
            exact ⟨n + 1, by omega, .through hmem (by rw [hparent, hid]) hlevel⟩
          · exact Bool.noConfusion h
    · rintro ⟨n, hn, hlevel⟩
      cases hlevel with
      | direct h => simp [h]
      | @through n _ above habove h hlevel =>
        have hup := ih.mpr ⟨n, by omega, hlevel⟩
        simp [h, ho.row?_eq_some habove, hup]

/-- Every session that a row interrupted is stored, and it is not after the row. -/
structure Nested (s : Store) : Prop where
  ordered : s.Ordered
  parent : ∀ r ∈ s.rows, ∀ v, r.parent = some v →
    v ≤ r.id.value ∧ ∃ above ∈ s.rows, above.id.value = v

theorem Nested.empty : empty.Nested where
  ordered := Ordered.empty
  parent := by simp [Store.empty]

/-- A row is at most as many levels below as there are rows up to it. -/
theorem IsLevel.exists_le (h : s.Nested) (hlevel : s.IsLevel v n r) {i : Nat}
    (hi : s.rows[i]? = some r) : ∃ m ≤ i + 1, s.IsLevel v m r := by
  induction hlevel generalizing i with
  | direct hparent => exact ⟨1, by omega, .direct hparent⟩
  | @through n r above habove hparent hlevel ih =>
    obtain ⟨j, hj⟩ := List.getElem?_of_mem habove
    obtain ⟨m, hm, hlevel'⟩ := ih hj
    obtain ⟨hle, -⟩ := h.parent r (List.mem_of_getElem? hi) _ hparent
    -- the interrupted session stands before the row, unless a row interrupted itself
    rcases Nat.lt_trichotomy j i with hlt | rfl | hgt
    · exact ⟨m + 1, by omega, .through habove hparent hlevel'⟩
    · obtain rfl : above = r := Option.some.inj (hj.symm.trans hi)
      exact ⟨m, hm, hlevel'⟩
    · have hlt := List.pairwise_iff_getElem.mp h.ordered.increasing i j
        (List.getElem?_eq_some_iff.mp hi).1 (List.getElem?_eq_some_iff.mp hj).1 hgt
      rw [(List.getElem?_eq_some_iff.mp hi).2, (List.getElem?_eq_some_iff.mp hj).2] at hlt
      omega

/-- A row is not before the session that it is below. -/
theorem IsLevel.le_id (h : s.Nested) (hr : r ∈ s.rows) (hlevel : s.IsLevel v n r) :
    v ≤ r.id.value := by
  induction hlevel with
  | direct hparent => exact (h.parent _ hr _ hparent).1
  | through habove hparent _ ih => exact Int.le_trans (ih habove) (h.parent _ hr _ hparent).1

theorem goesWith_iff (h : s.Nested) (hr : r ∈ s.rows) :
    s.goesWith v r = true ↔ r.id.value = v ∨ s.Below v r := by
  rw [goesWith, Bool.or_eq_true, beq_iff_eq, isBelow_iff h.ordered]
  constructor
  · rintro (hid | ⟨n, -, hlevel⟩)
    · exact .inl hid
    · exact .inr ⟨n, hlevel⟩
  · rintro (hid | ⟨n, hlevel⟩)
    · exact .inl hid
    · obtain ⟨i, hi⟩ := List.getElem?_of_mem hr
      obtain ⟨m, hm, hlevel'⟩ := hlevel.exists_le h hi
      have hlt := (List.getElem?_eq_some_iff.mp hi).1
      exact .inr ⟨m, by omega, hlevel'⟩

/-! ## What goes -/

/-- The row goes when sessions are removed: it is one of them, or below one of them. -/
def Taken (s : Store) (ids : List SessionId) (r : Row) : Prop :=
  r.id ∈ ids ∨ ∃ id ∈ ids, s.Below id.value r

/-- The row goes on with a session that goes when sessions are removed. -/
def Loses (s : Store) (ids : List SessionId) (r : Row) : Prop :=
  ∃ t ∈ s.rows, s.Taken ids t ∧ r.continues = some t.id.value

/-- The row `r'` is what is left of the row `r` when sessions are removed: `r` itself stays, and
it changes only in that a link to a session that goes is cleared. -/
structure LeftOf (s : Store) (ids : List SessionId) (r r' : Row) : Prop where
  stays : ¬ s.Taken ids r
  core : r'.core = r.core
  cleared : s.Loses ids r → r'.continues = none
  kept : ¬ s.Loses ids r → r'.continues = r.continues

theorem LeftOf.id_eq (h : s.LeftOf ids r r') : r'.id = r.id :=
  Row.id_eq_of_core h.core

theorem LeftOf.parent_eq (h : s.LeftOf ids r r') : r'.parent = r.parent := by
  have hparent : r'.core.parent = r.core.parent := congrArg Row.parent h.core
  exact hparent

/-- What is left of a row is decided by the row. -/
theorem LeftOf.unique {a b : Row} (ha : s.LeftOf ids r a) (hb : s.LeftOf ids r b) : a = b := by
  apply Row.eq_of_core (ha.core.trans hb.core.symm)
  by_cases hloses : s.Loses ids r
  · rw [ha.cleared hloses, hb.cleared hloses]
  · rw [ha.kept hloses, hb.kept hloses]

/-- A row that stays, and its link with it, is left as it is. -/
theorem leftOf_self (hstays : ¬ s.Taken ids r) (hkept : ¬ s.Loses ids r) : s.LeftOf ids r r :=
  ⟨hstays, rfl, fun hlost => absurd hlost hkept, fun _ => rfl⟩

/-- A row that stays has something left. -/
theorem exists_leftOf (h : ¬ s.Taken ids r) : ∃ r', s.LeftOf ids r r' := by
  by_cases hloses : s.Loses ids r
  · exact ⟨r.core, h, rfl, fun _ => rfl, fun hkept => absurd hloses hkept⟩
  · exact ⟨r, leftOf_self h hloses⟩

/-- A row goes with a session that is not after it. -/
theorem exists_le_of_taken (h : s.Nested) (hr : r ∈ s.rows) (htaken : s.Taken ids r) :
    ∃ id ∈ ids, id.value ≤ r.id.value := by
  rcases htaken with hmem | ⟨id, hid, n, hlevel⟩
  · exact ⟨r.id, hmem, Int.le_refl _⟩
  · exact ⟨id, hid, hlevel.le_id h hr⟩

theorem taken_cons_iff {id : SessionId} {rest : List SessionId} :
    s.Taken (id :: rest) r ↔ s.Taken [id] r ∨ s.Taken rest r := by
  simp only [Taken, List.mem_cons, List.not_mem_nil, or_false, exists_eq_or_imp, exists_eq_left]
  exact or_or_or_comm

/-! ## One removal -/

variable {id : SessionId}

theorem taken_singleton_iff (h : s.Nested) (hr : r ∈ s.rows) :
    s.Taken [id] r ↔ s.goesWith id.value r = true := by
  rw [goesWith_iff h hr, ← SessionId.ext_iff]
  simp only [Taken, List.mem_singleton, exists_eq_left]

/-- Nothing goes with a session that is not stored. -/
theorem not_taken_of_not_contains (h : s.Nested) (hid : s.contains id.value = false)
    (hr : r ∈ s.rows) : ¬ s.Taken [id] r := by
  have hnone := contains_eq_false_iff.mp hid
  have hlevel : ∀ n r, s.IsLevel id.value n r → r ∉ s.rows := by
    intro n r hlevel
    induction hlevel with
    | direct hparent =>
      intro hr
      obtain ⟨-, above, habove, heq⟩ := h.parent _ hr _ hparent
      exact hnone above habove heq
    | through habove _ _ ih => exact fun _ => ih habove
  rintro (hmem | ⟨_, hmem, n, hbelow⟩)
  · exact hnone r hr (congrArg SessionId.value (List.mem_singleton.mp hmem))
  · obtain rfl := List.mem_singleton.mp hmem
    exact hlevel n r hbelow hr

/-- What is left of a row that stays is the row with its link cleared or kept. -/
theorem leftOf_unlink (h : s.Nested) (hstays : ¬ s.Taken [id] r) :
    s.LeftOf [id] r
      (unlink ((s.rows.filter (s.goesWith id.value)).map fun t => t.id.value) r) where
  stays := hstays
  core := core_unlink _ r
  cleared := by
    rintro ⟨t, ht, htaken, hlink⟩
    have hmem := List.mem_map_of_mem (f := fun t => t.id.value)
      (List.mem_filter.mpr ⟨ht, (taken_singleton_iff h ht).mp htaken⟩)
    rw [unlink, hlink, Option.any_some, if_pos (List.contains_iff_mem.mpr hmem)]
  kept := by
    intro hkept
    unfold unlink
    split
    · next hany =>
      cases hlink : r.continues with
      | none => rfl
      | some w =>
        rw [hlink, Option.any_some, List.contains_iff_mem] at hany
        obtain ⟨t, ht, rfl⟩ := List.mem_map.mp hany
        obtain ⟨hmem, hgoes⟩ := List.mem_filter.mp ht
        exact absurd ⟨t, hmem, (taken_singleton_iff h hmem).mpr hgoes, hlink⟩ hkept
    · rfl

theorem mem_erase_iff (h : s.Nested) :
    r' ∈ (s.erase id).rows ↔ ∃ r ∈ s.rows, s.LeftOf [id] r r' := by
  cases hid : s.contains id.value with
  | false =>
    -- nothing goes, so every row is left as it is
    rw [erase_of_not_contains hid]
    have hloses : ∀ r, ¬ s.Loses [id] r := by
      rintro r ⟨t, ht, htaken, -⟩
      exact not_taken_of_not_contains h hid ht htaken
    have hsame : ∀ r ∈ s.rows, s.LeftOf [id] r r := fun r hr =>
      leftOf_self (not_taken_of_not_contains h hid hr) (hloses r)
    constructor
    · intro hr
      exact ⟨r', hr, hsame r' hr⟩
    · rintro ⟨r, hr, hleft⟩
      rwa [hleft.unique (hsame r hr)]
  | true =>
    rw [rows_erase hid, List.mem_map]
    constructor
    · rintro ⟨r, hr, rfl⟩
      obtain ⟨hmem, hstays⟩ := List.mem_filter.mp hr
      refine ⟨r, hmem, leftOf_unlink h fun htaken => ?_⟩
      rw [(taken_singleton_iff h hmem).mp htaken] at hstays
      exact Bool.noConfusion hstays
    · rintro ⟨r, hr, hleft⟩
      have hstays : s.goesWith id.value r = false := by
        cases hgoes : s.goesWith id.value r with
        | false => rfl
        | true => exact absurd ((taken_singleton_iff h hr).mpr hgoes) hleft.stays
      refine ⟨r, List.mem_filter.mpr ⟨hr, by simp [hstays]⟩, ?_⟩
      exact (leftOf_unlink h hleft.stays).unique hleft

/-- A row goes with the session above it. -/
theorem taken_of_above {above : Row} (habove : above ∈ s.rows)
    (hparent : r.parent = some above.id.value) (h : s.Taken ids above) : s.Taken ids r := by
  rcases h with hmem | ⟨v, hv, n, hlevel⟩
  · exact .inr ⟨above.id, hmem, 1, .direct hparent⟩
  · exact .inr ⟨v, hv, n + 1, .through habove hparent hlevel⟩

theorem Nested.erase (h : s.Nested) (id : SessionId) : (s.erase id).Nested where
  ordered := h.ordered.of_sublist (core_erase_sublist s id) (lastId_erase s id)
  parent := by
    intro r' hr' v hv
    obtain ⟨r, hr, hleft⟩ := (mem_erase_iff h).mp hr'
    rw [hleft.parent_eq] at hv
    obtain ⟨hle, above, habove, rfl⟩ := h.parent r hr v hv
    have hstays : ¬ s.Taken [id] above := fun h => hleft.stays (taken_of_above habove hv h)
    have hkept := leftOf_unlink h hstays
    refine ⟨by rw [hleft.id_eq]; exact hle, _, (mem_erase_iff h).mpr ⟨above, habove, hkept⟩, ?_⟩
    rw [hkept.id_eq]

/-- What stays is as many levels below as it was before the removal. -/
theorem isLevel_erase_iff (h : s.Nested) (hleft : s.LeftOf [id] r r') :
    (s.erase id).IsLevel v n r' ↔ s.IsLevel v n r := by
  constructor
  · intro hlevel
    induction hlevel generalizing r with
    | direct hparent => exact .direct (hleft.parent_eq ▸ hparent)
    | @through n r' above' habove' hparent _ ih =>
      obtain ⟨above, habove, hleft'⟩ := (mem_erase_iff h).mp habove'
      rw [hleft.parent_eq, hleft'.id_eq] at hparent
      exact .through habove hparent (ih hleft')
  · intro hlevel
    induction hlevel generalizing r' with
    | direct hparent => exact .direct (hleft.parent_eq.trans hparent)
    | @through n r above habove hparent _ ih =>
      -- what is above a row that stays is still there
      have hkept := leftOf_unlink h fun htaken => hleft.stays (taken_of_above habove hparent htaken)
      refine .through ((mem_erase_iff h).mpr ⟨above, habove, hkept⟩) ?_ (ih hkept)
      rw [hleft.parent_eq, hkept.id_eq, hparent]

/-! ## Removals one after the other -/

variable (rest : List SessionId) {m : Row}

/-- What goes with the later removals is known before the first. -/
theorem taken_erase_iff (h : s.Nested) (hleft : s.LeftOf [id] r m) :
    (s.erase id).Taken rest m ↔ s.Taken (id :: rest) r := by
  have hbelow : ∀ v, (s.erase id).Below v m ↔ s.Below v r := fun v =>
    exists_congr fun n => isLevel_erase_iff h hleft
  rw [taken_cons_iff, or_iff_right hleft.stays]
  simp only [Taken, hleft.id_eq, hbelow]

theorem loses_cons_iff (h : s.Nested) (hleft : s.LeftOf [id] r m) :
    s.Loses (id :: rest) r ↔ s.Loses [id] r ∨ (s.erase id).Loses rest m := by
  constructor
  · rintro ⟨t, ht, htaken, hlink⟩
    by_cases hlost : s.Loses [id] r
    · exact .inl hlost
    · -- the session that the row goes on with is still there after the first removal
      have hstays : ¬ s.Taken [id] t := fun htaken' => hlost ⟨t, ht, htaken', hlink⟩
      have hkept := leftOf_unlink h hstays
      refine .inr ⟨_, (mem_erase_iff h).mpr ⟨t, ht, hkept⟩,
        (taken_erase_iff rest h hkept).mpr htaken, ?_⟩
      rw [hleft.kept hlost, hkept.id_eq, hlink]
  · rintro (⟨t, ht, htaken, hlink⟩ | ⟨t', ht', htaken, hlink⟩)
    · exact ⟨t, ht, taken_cons_iff.mpr (.inl htaken), hlink⟩
    · obtain ⟨t, ht, hleft'⟩ := (mem_erase_iff h).mp ht'
      refine ⟨t, ht, (taken_erase_iff rest h hleft').mp htaken, ?_⟩
      by_cases hlost : s.Loses [id] r
      · rw [hleft.cleared hlost] at hlink
        simp at hlink
      · rw [← hleft.kept hlost, hlink, hleft'.id_eq]

/-- What the later removals leave of what the first one left is what all of them leave. -/
theorem leftOf_erase_iff (h : s.Nested) (hleft : s.LeftOf [id] r m) :
    (s.erase id).LeftOf rest m r' ↔ s.LeftOf (id :: rest) r r' := by
  have htaken := taken_erase_iff rest h hleft
  have hloses := loses_cons_iff rest h hleft
  constructor
  · intro hlast
    refine ⟨fun hgone => hlast.stays (htaken.mpr hgone), hlast.core.trans hleft.core, ?_, ?_⟩
    · intro hlost
      by_cases hlater : (s.erase id).Loses rest m
      · exact hlast.cleared hlater
      · have hfirst := (hloses.mp hlost).resolve_right hlater
        rw [hlast.kept hlater, hleft.cleared hfirst]
    · intro hkept
      rw [hlast.kept fun hlater => hkept (hloses.mpr (.inr hlater)),
        hleft.kept fun hfirst => hkept (hloses.mpr (.inl hfirst))]
  · intro hall
    refine ⟨fun hgone => hall.stays (htaken.mp hgone), hall.core.trans hleft.core.symm, ?_, ?_⟩
    · intro hlater
      exact hall.cleared (hloses.mpr (.inr hlater))
    · intro hkept
      by_cases hfirst : s.Loses [id] r
      · rw [hall.cleared (hloses.mpr (.inl hfirst)), hleft.cleared hfirst]
      · rw [hall.kept fun hlost => hfirst ((hloses.mp hlost).resolve_right hkept),
          hleft.kept hfirst]

theorem leftOf_nil_iff : s.LeftOf [] r r' ↔ r' = r := by
  have hstays : ∀ t, ¬ s.Taken [] t := by
    rintro t (hmem | ⟨_, hmem, -⟩) <;> simp at hmem
  have hkept : ¬ s.Loses [] r := fun ⟨t, _, htaken, _⟩ => hstays t htaken
  constructor
  · intro hleft
    exact Row.eq_of_core hleft.core (hleft.kept hkept)
  · rintro rfl
    exact leftOf_self (hstays r') hkept

/-- The rows that are left when sessions are removed are what is left of the rows that stay. -/
theorem mem_eraseAll_iff (h : s.Nested) :
    r' ∈ (s.eraseAll ids).1.rows ↔ ∃ r ∈ s.rows, s.LeftOf ids r r' := by
  induction ids generalizing s with
  | nil => simp [eraseAll, leftOf_nil_iff]
  | cons id rest ih =>
    show r' ∈ ((s.erase id).eraseAll rest).1.rows ↔ _
    rw [ih (h.erase id)]
    constructor
    · rintro ⟨m, hm, hlast⟩
      obtain ⟨r, hr, hleft⟩ := (mem_erase_iff h).mp hm
      exact ⟨r, hr, (leftOf_erase_iff rest h hleft).mp hlast⟩
    · rintro ⟨r, hr, hall⟩
      have hstays : ¬ s.Taken [id] r := fun hgone => hall.stays (taken_cons_iff.mpr (.inl hgone))
      have hleft := leftOf_unlink h hstays
      exact ⟨_, (mem_erase_iff h).mpr ⟨r, hr, hleft⟩, (leftOf_erase_iff rest h hleft).mpr hall⟩

theorem Nested.eraseAll (h : s.Nested) (ids : List SessionId) : (s.eraseAll ids).1.Nested :=
  eraseAll_induction (fun _ id ht => ht.erase id) ids h

/-! ## Removals that reach too deep -/

/-- The row is further below the session with a number than one removal reaches. -/
structure IsBeyond (s : Store) (v : Int) (r : Row) : Prop where
  below : s.Below v r
  deep : ∀ n, s.IsLevel v n r → levelLimit < n

theorem isTooDeep_iff (h : s.Nested) :
    s.isTooDeep v = true ↔ s.contains v = true ∧ ∃ r ∈ s.rows, s.IsBeyond v r := by
  -- as many steps as there are rows find everything that is below at all
  have hbeyond : ∀ r ∈ s.rows,
      (!s.isBelow v levelLimit r && s.isBelow v s.rows.length r) = true ↔ s.IsBeyond v r := by
    intro r hr
    rw [Bool.and_eq_true, Bool.not_eq_true', Bool.eq_false_iff, ne_eq, isBelow_iff h.ordered,
      isBelow_iff h.ordered]
    constructor
    · rintro ⟨hshallow, n, -, hlevel⟩
      exact ⟨⟨n, hlevel⟩, fun m hm => Nat.lt_of_not_le fun hle => hshallow ⟨m, hle, hm⟩⟩
    · rintro ⟨⟨n, hlevel⟩, hdeep⟩
      obtain ⟨i, hi⟩ := List.getElem?_of_mem hr
      obtain ⟨m, hm, hlevel'⟩ := hlevel.exists_le h hi
      have hlt := (List.getElem?_eq_some_iff.mp hi).1
      refine ⟨fun ⟨k, hk, hlevelk⟩ => ?_, m, by omega, hlevel'⟩
      exact absurd (hdeep k hlevelk) (Nat.not_lt_of_le hk)
  rw [isTooDeep, Bool.and_eq_true, List.any_eq_true]
  refine and_congr_right fun _ => exists_congr fun r => and_congr_right fun hr => hbeyond r hr

/-- What stays is as far below as it was before the removal. -/
theorem isBeyond_erase_iff (h : s.Nested) (hleft : s.LeftOf [id] r r') :
    (s.erase id).IsBeyond v r' ↔ s.IsBeyond v r := by
  have hlevel : ∀ n, (s.erase id).IsLevel v n r' ↔ s.IsLevel v n r := fun _ =>
    isLevel_erase_iff h hleft
  constructor
  · rintro ⟨⟨n, hn⟩, hfar⟩
    exact ⟨⟨n, (hlevel n).mp hn⟩, fun m hm => hfar m ((hlevel m).mpr hm)⟩
  · rintro ⟨⟨n, hn⟩, hfar⟩
    exact ⟨⟨n, (hlevel n).mpr hn⟩, fun m hm => hfar m ((hlevel m).mp hm)⟩

/-- What is below a session is below a stored one. -/
theorem contains_of_below (h : s.Nested) (hr : r ∈ s.rows) (hbelow : s.Below id.value r) :
    s.contains id.value = true := by
  cases hid : s.contains id.value with
  | true => rfl
  | false =>
    exact absurd (.inr ⟨id, List.mem_singleton_self id, hbelow⟩) (not_taken_of_not_contains h hid hr)

/-- When the turn of one of the sessions comes, something is too far below it that did not go with
an earlier one. -/
def ReachesTooDeep (s : Store) (ids : List SessionId) : Prop :=
  ∃ earlier id later, ids = earlier ++ id :: later ∧
    ∃ r ∈ s.rows, s.IsBeyond id.value r ∧ ¬ s.Taken earlier r

theorem goesTooDeep_iff (h : s.Nested) : s.goesTooDeep ids = true ↔ s.ReachesTooDeep ids := by
  -- by induction on the removals; a removal leaves the levels of what stays as they were
  induction ids generalizing s with
  | nil => simp [goesTooDeep, ReachesTooDeep]
  | cons id rest ih =>
    rw [goesTooDeep, Bool.or_eq_true, isTooDeep_iff h, ih (h.erase id)]
    constructor
    · rintro (⟨-, r, hr, hbeyond⟩ | ⟨earlier, id', later, rfl, r', hr', hbeyond, hstays⟩)
      · exact ⟨[], id, rest, rfl, r, hr, hbeyond, (leftOf_nil_iff.mpr rfl).stays⟩
      · obtain ⟨r, hr, hleft⟩ := (mem_erase_iff h).mp hr'
        exact ⟨id :: earlier, id', later, rfl, r, hr, (isBeyond_erase_iff h hleft).mp hbeyond,
          fun htaken => hstays ((taken_erase_iff earlier h hleft).mpr htaken)⟩
    · rintro ⟨earlier, id', later, hids, r, hr, hbeyond, hstays⟩
      cases earlier with
      | nil =>
        obtain ⟨rfl, rfl⟩ := List.cons.inj hids
        exact .inl ⟨contains_of_below h hr hbeyond.below, r, hr, hbeyond⟩
      | cons first earlier =>
        obtain ⟨rfl, rfl⟩ := List.cons.inj hids
        have hleft := leftOf_unlink h fun htaken => hstays (taken_cons_iff.mpr (.inl htaken))
        exact .inr ⟨earlier, id', later, rfl, _, (mem_erase_iff h).mpr ⟨r, hr, hleft⟩,
          (isBeyond_erase_iff h hleft).mpr hbeyond,
          fun htaken => hstays ((taken_erase_iff earlier h hleft).mp htaken)⟩

/-- Removals reach too deep only if something was too far below one of the sessions before the
first of them. -/
theorem exists_isBeyond_of_goesTooDeep (h : s.Nested) (hdeep : s.goesTooDeep ids = true) :
    ∃ id ∈ ids, ∃ r ∈ s.rows, s.IsBeyond id.value r := by
  obtain ⟨earlier, id, later, rfl, r, hr, hbeyond, -⟩ := (goesTooDeep_iff h).mp hdeep
  exact ⟨id, List.mem_append_right _ List.mem_cons_self, r, hr, hbeyond⟩

/-! ## Removing sessions at the top level -/

variable {rest}

/-- The numbers are those of different stored sessions at the top level. -/
structure AreTop (s : Store) (ids : List SessionId) : Prop where
  distinct : ids.Nodup
  top : ∀ id ∈ ids, ∃ r ∈ s.rows, r.id = id ∧ r.parent = none

/-- A row that interrupted nothing is below no session. -/
theorem not_isLevel_of_top (hr : r.parent = none) : ¬ s.IsLevel v n r := by
  intro hlevel
  cases hlevel with
  | direct hparent => simp [hr] at hparent
  | through _ hparent _ => simp [hr] at hparent

/-- A row is below one session at the top level at most. -/
theorem IsLevel.top_unique (ho : s.Ordered) {a b : Row} (ha : a ∈ s.rows) (hb : b ∈ s.rows)
    (hatop : a.parent = none) (hbtop : b.parent = none) (hlevel : s.IsLevel a.id.value n r)
    {k : Nat} (hlevel' : s.IsLevel b.id.value k r) : a = b := by
  -- by induction on the way up to `a`; a way up does not go on past a session at the top level
  induction hlevel generalizing k with
  | direct hparent =>
    cases hlevel' with
    | direct hparent' =>
      exact ho.eq_of_id ha hb (Option.some.inj (hparent.symm.trans hparent'))
    | through habove hparent' hlevel =>
      obtain rfl := ho.eq_of_id ha habove (Option.some.inj (hparent.symm.trans hparent'))
      exact absurd hlevel (not_isLevel_of_top hatop)
  | through habove hparent hup ih =>
    cases hlevel' with
    | direct hparent' =>
      obtain rfl := ho.eq_of_id hb habove (Option.some.inj (hparent'.symm.trans hparent))
      exact absurd hup (not_isLevel_of_top hbtop)
    | through habove' hparent' hlevel =>
      obtain rfl := ho.eq_of_id habove habove' (Option.some.inj (hparent.symm.trans hparent'))
      exact ih hlevel

/-- A session at the top level goes only when it is removed itself. -/
theorem not_taken_of_top (hr : r.parent = none) (hid : r.id ∉ ids) : ¬ s.Taken ids r := by
  rintro (hmem | ⟨_, _, n, hlevel⟩)
  · exact hid hmem
  · exact not_isLevel_of_top hr hlevel

theorem AreTop.head (h : s.AreTop (id :: rest)) : ∃ r ∈ s.rows, r.id = id ∧ r.parent = none :=
  h.top id List.mem_cons_self

theorem AreTop.contains_head (h : s.AreTop (id :: rest)) : s.contains id.value = true := by
  obtain ⟨r, hr, rfl, -⟩ := h.head
  exact contains_iff.mpr ⟨r, hr, rfl⟩

/-- The later sessions are still there after the first removal. -/
theorem AreTop.erase (hn : s.Nested) (h : s.AreTop (id :: rest)) : (s.erase id).AreTop rest where
  distinct := (List.nodup_cons.mp h.distinct).2
  top := by
    intro id' hid'
    obtain ⟨r, hr, rfl, htop⟩ := h.top id' (List.mem_cons_of_mem _ hid')
    have hne : r.id ∉ [id] := by
      rw [List.mem_singleton]
      rintro rfl
      exact (List.nodup_cons.mp h.distinct).1 hid'
    have hleft := leftOf_unlink hn (not_taken_of_top htop hne)
    exact ⟨_, (mem_erase_iff hn).mpr ⟨r, hr, hleft⟩, hleft.id_eq, hleft.parent_eq.trans htop⟩

/-- Each of the sessions is there when its turn comes. -/
theorem AreTop.count_eraseAll (hn : s.Nested) (h : s.AreTop ids) :
    (s.eraseAll ids).2 = ids.length := by
  induction ids generalizing s with
  | nil => rfl
  | cons id rest ih =>
    show ((s.erase id).eraseAll rest).2 + (if s.contains id.value then 1 else 0) = _
    rw [ih (hn.erase id) (h.erase hn), h.contains_head, if_pos rfl, List.length_cons]

/-- Removing sessions at the top level reaches too deep exactly when something is too far below
one of them. -/
theorem AreTop.goesTooDeep_iff (hn : s.Nested) (h : s.AreTop ids) :
    s.goesTooDeep ids = true ↔ ∃ id ∈ ids, ∃ r ∈ s.rows, s.IsBeyond id.value r := by
  refine ⟨exists_isBeyond_of_goesTooDeep hn, ?_⟩
  rintro ⟨id, hid, r, hr, hbeyond⟩
  obtain ⟨b, hb, rfl, hbtop⟩ := h.top id hid
  obtain ⟨n, hlevel⟩ := hbeyond.below
  obtain ⟨earlier, later, rfl⟩ := List.append_of_mem hid
  refine (Store.goesTooDeep_iff hn).mpr ⟨earlier, b.id, later, rfl, r, hr, hbeyond, ?_⟩
  -- the row does not go with an earlier session, since it is below another one
  rintro (hmem | ⟨id', hid', m, hlevel'⟩)
  · obtain ⟨a, ha, haid, hatop⟩ := h.top r.id (List.mem_append_left _ hmem)
    obtain rfl := hn.ordered.eq_of_id ha hr (congrArg SessionId.value haid)
    exact not_isLevel_of_top hatop hlevel
  · obtain ⟨a, ha, rfl, hatop⟩ := h.top id' (List.mem_append_left _ hid')
    obtain rfl := IsLevel.top_unique hn.ordered ha hb hatop hbtop hlevel' hlevel
    exact (List.nodup_append.mp h.distinct).2.2 _ hid' _ List.mem_cons_self rfl

end Store

end Daybook
