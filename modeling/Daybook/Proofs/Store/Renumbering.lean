import Daybook.Proofs.Store.Operations

/-!
# Stores under other numbers

Which numbers a log gets depends on what was stored before it. Two stores that differ in nothing
else are the same up to a renumbering: a map of numbers that keeps different numbers different,
applied to the numbers of the rows and to their links.

* `Store.SameButNumbers` : stores that differ in the numbers beyond a given one.
* `Renumbering.swap` : the renumbering for two logs in the other order.
* `Store.sameButNumbers_of_later`, `Store.sameButNumbers_of_append` : logs under other numbers.
-/

namespace Daybook

/-! ## Renumberings -/

/-- New numbers for old ones: positive for positive ones, and different for different ones. -/
structure Renumbering where
  map : Int → Int
  pos : ∀ v, 0 < v → 0 < map v
  injective : ∀ v w, map v = map w → v = w

/-- The new number of a session. -/
def Renumbering.apply (f : Renumbering) (id : SessionId) : SessionId :=
  ⟨f.map id.value, f.pos id.value id.pos⟩

/-- The row under its new number, with its links to the new numbers. -/
def Row.renumber (f : Renumbering) (r : Row) : Row :=
  { r with
    id := f.apply r.id
    parent := r.parent.map f.map
    continues := r.continues.map f.map }

namespace Renumbering

/-- The `m` numbers after `last` and the `n` numbers after those change places. -/
def swap (last m n : Nat) : Renumbering where
  map v :=
    if v ≤ last then v
    else if v ≤ last + m then v + n
    else if v ≤ last + m + n then v - m
    else v
  pos := by omega
  injective := by omega

theorem swap_of_le {last m n : Nat} {v : Int} (h : v ≤ last) : (swap last m n).map v = v :=
  if_pos h

open Store (numberAt)

/-- The numbers of the first block. -/
theorem apply_swap_first {last m n k : Nat} (h : k < m) :
    (swap last m n).apply (numberAt last k) = numberAt (last + n) k := by
  apply SessionId.ext
  show (swap last m n).map (last + k + 1) = (last + n : Nat) + k + 1
  have hbeyond : ¬ (last + k + 1 : Int) ≤ last := by omega
  have hwithin : (last + k + 1 : Int) ≤ last + m := by omega
  simp only [swap, if_neg hbeyond, if_pos hwithin]
  omega

/-- The numbers of the second block. -/
theorem apply_swap_second {last m n k : Nat} (h : k < n) :
    (swap last m n).apply (numberAt (last + m) k) = numberAt last k := by
  apply SessionId.ext
  show (swap last m n).map ((last + m : Nat) + k + 1) = last + k + 1
  have hbeyond : ¬ ((last + m : Nat) + k + 1 : Int) ≤ last := by omega
  have hsecond : ¬ ((last + m : Nat) + k + 1 : Int) ≤ last + m := by omega
  have hwithin : ((last + m : Nat) + k + 1 : Int) ≤ last + m + n := by omega
  simp only [swap, if_neg hbeyond, if_neg hsecond, if_pos hwithin]
  omega

end Renumbering

namespace Store

variable {s : Store} {f : Renumbering}

/-! ## Rows that are kept -/

/-- The rows of a store are kept when all numbers that were given out are. -/
theorem map_renumber_eq_self (hn : s.Nested) (hl : s.LinksBack)
    (hf : ∀ v ≤ (s.lastId : Int), f.map v = v) : s.rows.map (Row.renumber f) = s.rows := by
  have hsame : ∀ r ∈ s.rows, r.renumber f = id r := by
    intro r hr
    have hid := hn.ordered.bounded r hr
    -- parents and links are not after the row
    have hlink : ∀ link : Option Int, (∀ v, link = some v → v ≤ r.id.value) →
        link.map f.map = link := by
      intro link hle
      cases link with
      | none => rfl
      | some v => exact congrArg some (hf v (Int.le_trans (hle v rfl) hid))
    have hnumber : f.apply r.id = r.id := SessionId.ext (hf _ hid)
    have hparent := hlink r.parent fun v hv => (hn.parent r hr v hv).1
    have hcontinues := hlink r.continues fun v hv => (hl r hr v hv).1
    rw [Row.renumber, hnumber, hparent, hcontinues, id_eq]
  rw [List.map_congr_left hsame, List.map_id]

/-! ## Rows for spans -/

/-- The row for a span that refers back, under another number. -/
theorem renumber_rowAt {lastId lastId' k : Nat} {span : Span} (hback : RefersBack k span)
    (hnumbers : ∀ j ≤ k, f.apply (numberAt lastId j) = numberAt lastId' j)
    (hsessions : ∀ id, span.continues = some (.session id) → f.apply id = id) :
    (rowAt lastId k span).renumber f = rowAt lastId' k span := by
  have hvalue : ∀ link : Option SessionId,
      (link.map SessionId.value).map f.map = (link.map f.apply).map SessionId.value := by
    intro link
    cases link <;> rfl
  have hparent : (span.parent.map (numberAt lastId)).map f.apply =
      span.parent.map (numberAt lastId') := by
    cases h : span.parent with
    | none => rfl
    | some target => exact congrArg some (hnumbers target (Nat.le_of_lt (hback.parent target h)))
  have hcontinues : (span.continues.map (linkNumber lastId)).map f.apply =
      span.continues.map (linkNumber lastId') := by
    cases h : span.continues with
    | none => rfl
    | some link =>
      cases link with
      | session id => exact congrArg some (hsessions id h)
      | entry target =>
        exact congrArg some (hnumbers target (Nat.le_of_lt (hback.continues target h)))
  simp only [Row.renumber, rowAt, rowOf, sessionOf, hnumbers k (Nat.le_refl k), hvalue, hparent,
    hcontinues]

/-- The rows for the spans of a log that can be stored, under other numbers. -/
theorem map_renumber_rowAt (ho : s.Ordered) (hf : ∀ v ≤ (s.lastId : Int), f.map v = v)
    {lastId lastId' : Nat} {spans : List Span}
    (hspans : ∀ k span, spans[k]? = some span → s.IsStorable k span)
    (hnumbers : ∀ k < spans.length, f.apply (numberAt lastId k) = numberAt lastId' k) :
    (spans.mapIdx (rowAt lastId)).map (Row.renumber f) = spans.mapIdx (rowAt lastId') := by
  apply List.ext_getElem?
  intro k
  rw [List.getElem?_map, List.getElem?_mapIdx, List.getElem?_mapIdx, Option.map_map]
  cases hspan : spans[k]? with
  | none => rfl
  | some span =>
    have hlt := (List.getElem?_eq_some_iff.mp hspan).1
    -- stored sessions keep their numbers
    have hsessions : ∀ id, span.continues = some (.session id) → f.apply id = id := by
      intro id hlink
      obtain ⟨r, hr, rfl⟩ := (hspans k span hspan).stored id hlink
      exact SessionId.ext (hf _ (ho.bounded r hr))
    exact congrArg some (renumber_rowAt (hspans k span hspan).back
      (fun j hj => hnumbers j (Nat.lt_of_le_of_lt hj hlt)) hsessions)

/-! ## Stores that are the same but for numbers -/

/-- Under new numbers beyond `last`, the rows of the one store are those of the other. Rows stand
in the order of their numbers, so their order may differ. -/
def SameButNumbers (last : Nat) (a b : Store) : Prop :=
  ∃ f : Renumbering, (∀ v ≤ (last : Int), f.map v = v) ∧
    (a.rows.map (Row.renumber f)).Perm b.rows

/-- A log whose numbers begin later. -/
theorem sameButNumbers_of_later {a b : Store} (hn : s.Nested) (hl : s.LinksBack)
    {spans : List Span} (hspans : ∀ k span, spans[k]? = some span → s.IsStorable k span) {m : Nat}
    (ha : a.rows = s.rows ++ spans.mapIdx (rowAt s.lastId))
    (hb : b.rows = s.rows ++ spans.mapIdx (rowAt (s.lastId + m))) :
    a.SameButNumbers s.lastId b := by
  have hkept : ∀ v ≤ (s.lastId : Int), (Renumbering.swap s.lastId spans.length m).map v = v :=
    fun v hv => Renumbering.swap_of_le hv
  refine ⟨_, hkept, ?_⟩
  rw [ha, hb, List.map_append, map_renumber_eq_self hn hl hkept,
    map_renumber_rowAt hn.ordered hkept hspans fun k => Renumbering.apply_swap_first]

/-- Two logs in one order and in the other. -/
theorem sameButNumbers_of_append {a b : Store} (hn : s.Nested) (hl : s.LinksBack)
    {first second : List Span}
    (hfirst : ∀ k span, first[k]? = some span → s.IsStorable k span)
    (hsecond : ∀ k span, second[k]? = some span → s.IsStorable k span)
    (ha : a.rows = s.rows ++ first.mapIdx (rowAt s.lastId) ++
      second.mapIdx (rowAt (s.lastId + first.length)))
    (hb : b.rows = s.rows ++ second.mapIdx (rowAt s.lastId) ++
      first.mapIdx (rowAt (s.lastId + second.length))) :
    a.SameButNumbers s.lastId b := by
  have hkept : ∀ v ≤ (s.lastId : Int),
      (Renumbering.swap s.lastId first.length second.length).map v = v :=
    fun v hv => Renumbering.swap_of_le hv
  refine ⟨_, hkept, ?_⟩
  rw [ha, hb, List.map_append, List.map_append, map_renumber_eq_self hn hl hkept,
    map_renumber_rowAt hn.ordered hkept hfirst fun k => Renumbering.apply_swap_first,
    map_renumber_rowAt hn.ordered hkept hsecond fun k => Renumbering.apply_swap_second,
    List.append_assoc, List.append_assoc]
  exact List.perm_append_comm.append_left s.rows

end Store

end Daybook
