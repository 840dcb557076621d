import Daybook.Proofs.Store.Reading

/-!
# Overlaps in the store

The store compares moments by their texts, and the spans of a log are compared as moments. For
years of four digits the two agree, so what is asked of the store and what is asked of a log
come to the same question about rows.

* `Store.Apart` : no two rows at the top level overlap.
-/

namespace Daybook

/-! ## Rows that were written -/

/-- The start, and the end if there is one, are in years of four digits. -/
def IsWithinYears (start : DateTime) (stop : Option DateTime) : Prop :=
  start.FourDigit ∧ ∀ t ∈ stop, t.FourDigit

instance (start : DateTime) (stop : Option DateTime) : Decidable (IsWithinYears start stop) :=
  inferInstanceAs (Decidable (_ ∧ _))

theorem IsWithinYears.isWithinCalendar {start : DateTime} {stop : Option DateTime}
    (h : IsWithinYears start stop) : IsWithinCalendar start stop :=
  ⟨h.1.inRange, fun t ht => (h.2 t ht).inRange⟩

/-- The row is that of some session whose bounds are in years of four digits. -/
def Row.IsWritten (r : Row) : Prop :=
  ∃ n : NewSession, IsWithinYears n.start n.stop ∧ r = Store.rowOf r.id n

namespace Store

/-- A row that was written reads as the session it was written for. -/
theorem session_rowOf (id : SessionId) {n : NewSession} (h : IsWithinYears n.start n.stop) :
    ∃ session, (rowOf id n).session = .ok session ∧ session.start = n.start ∧
      session.stop = n.stop := by
  rw [rowOf_eq]
  exact ⟨_, session_row (h.isWithinCalendar), rfl, rfl⟩

theorem isWritten_unlink (gone : List Int) {r : Row} (h : r.IsWritten) :
    (unlink gone r).IsWritten := by
  obtain ⟨n, hyears, hr⟩ := h
  unfold unlink
  split
  · exact ⟨{ n with continues := none }, hyears, by rw [hr]; rfl⟩
  · exact ⟨n, hyears, hr⟩

/-! ## Rows that overlap -/

/-- The bounds of two rows, compared as texts, overlap. -/
def rowsOverlap (a b : Row) : Bool :=
  b.stop.all (fun text => decide (a.start < text)) &&
    a.stop.all (fun text => decide (b.start < text))

theorem rowsOverlap_comm (a b : Row) : rowsOverlap a b = rowsOverlap b a := by
  unfold rowsOverlap
  exact Bool.and_comm _ _

/-- Rows overlap when the sessions they were written for do. -/
theorem rowsOverlap_rowOf {a b : SessionId} {m n : NewSession} (hm : IsWithinYears m.start m.stop)
    (hn : IsWithinYears n.start n.stop) :
    rowsOverlap (rowOf a m) (rowOf b n) = overlaps m.start m.stop n.start n.stop := by
  -- each of the two comparisons says the same of texts as of moments
  have hall : ∀ {start : DateTime} {stop : Option DateTime}, start.FourDigit →
      (∀ t ∈ stop, t.FourDigit) →
      (stop.map storedText).all (fun text => decide (storedText start < text)) =
        stop.all fun t => decide (start < t) := by
    intro start stop hstart hstop
    cases stop with
    | none => rfl
    | some t =>
      have hiff := storedText_lt_iff hstart (hstop t rfl)
      simp only [Option.map_some, Option.all_some, hiff]
  unfold rowsOverlap overlaps rowOf
  simp only [hall hm.1 hn.2, hall hn.1 hm.2]

/-- No two sessions at the top level overlap, and every row can be read. -/
structure Apart (s : Store) : Prop where
  written : ∀ r ∈ s.rows, r.IsWritten
  apart : s.rows.Pairwise fun a b =>
    a.parent = none → b.parent = none → rowsOverlap a b = false

variable {s : Store}

theorem Apart.empty : empty.Apart where
  written := by simp [Store.empty]
  apart := List.Pairwise.nil

/-- Removing sessions makes no two of those that stay overlap, and none of them turns into one
at the top level. -/
theorem Apart.erase (h : s.Apart) (id : SessionId) : (s.erase id).Apart where
  written := forall_mem_erase (fun gone _ hr => isWritten_unlink gone hr) h.written id
  apart := by
    have hcore : (s.rows.map Row.core).Pairwise fun a b =>
        a.parent = none → b.parent = none → rowsOverlap a b = false :=
      List.pairwise_map.mpr h.apart
    have hafter := hcore.sublist (core_erase_sublist s id)
    rw [List.pairwise_map] at hafter
    exact hafter

theorem Apart.eraseAll (h : s.Apart) (ids : List SessionId) : (s.eraseAll ids).1.Apart :=
  eraseAll_induction (fun _ id ht => ht.erase id) ids h

end Store

end Daybook
