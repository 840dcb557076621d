import Daybook.Proofs.Import.Chronology
import Daybook.Proofs.Import.Origin
import Daybook.Proofs.Timeline.Bounds

/-!
# Sessions that end before they begin

A log may run backwards: at most a warning says so. Work then ends when the line that closes it
says, even if that is before the work began, and it is stored like this. Nothing else makes a
session end before it begins: a stated duration leads forward, and what a store does with a
session leaves its bounds alone.

* `reached_stop_lt_start` : a session that ends before it begins.
* `reached_stop_lt_start_iff` : which sessions do.
-/

namespace Daybook

namespace Import

open Store (numberAt)
open Timeline (Closes Scoped entriesBefore)

/-! ## Logs in order of time -/

/-- In a log in order of time no event closes an entry that begins later. -/
theorem Request.IsSorted.le_of_closes {r : Request} (h : r.IsSorted) {i q : Nat} {e : Entry}
    {event : Event} (hi : r.log.events[i]? = some (.entry e)) (hq : r.log.events[q]? = some event)
    (hcloses : Closes r.log.events q i) : e.timestamp ≤ event.timestamp := by
  have hlt : i < q := (Timeline.isOpen_iff.mp hcloses.isOpen).1
  have hle := Timeline.IsSorted.le h hi hq (Nat.le_of_lt hlt)
  exact hle

/-! ## Runs -/

/-- A shift past midnight, in a log that does not say so. -/
def nightShift : List Request :=
  [{ options := {}, base := sampleDay, text := "22:00 Shift\n1:00 @end" }]

/-- The shift is stored, with its end before its start. -/
theorem reached_stop_lt_start :
    ∃ row ∈ (reached nightShift).rows, ∃ x ∈ row.session.toOption, ∃ t ∈ x.stop,
      t < x.start := by
  decide +kernel

/-- Every session that is stored was stored by an import of the run, and it has the start and the
end that the rules for closing give to the entry at its place in the log of that import. It ends
before it begins exactly when an event of that log with an earlier timestamp closed the entry, and
so never when the timestamps of that log never decrease, whatever the other logs of the run are. -/
theorem reached_stop_lt_start_iff (requests : List Request) :
    ∀ row ∈ (reached requests).rows, ∃ x : Session, row = x.row ∧
      (IsWithinCalendar x.start x.stop → row.session = .ok x) ∧
      (∃ before r, StoredBy requests before r x.id) ∧
      ∀ before r, StoredBy requests before r x.id →
        ∃ k s i e, r.spans[k]? = some s ∧ x.id = numberAt (reached before).lastId k ∧
          r.log.events[i]? = some (.entry e) ∧ entriesBefore r.log.events i = k ∧
          Scoped r.log.events i e s ∧ x.start = e.timestamp ∧ x.stop = s.stop ∧
          ((∃ t ∈ x.stop, t < x.start) ↔
            ∃ q event, r.log.events[q]? = some event ∧ Closes r.log.events q i ∧
              event.timestamp < x.start) ∧
          (r.IsSorted → ∀ t ∈ x.stop, x.start ≤ t) := by
  intro row hrow
  obtain ⟨before, r, k, s, hstored, hs, hnumber, hbounds⟩ := exists_origin requests row hrow
  obtain ⟨x, rfl, hstart, hstop⟩ := hbounds.exists_session
  refine ⟨x, rfl, Store.session_row, ⟨before, r, hstored⟩, fun before' r' hstored' => ?_⟩
  obtain ⟨rfl, rfl⟩ := hstored.unique hstored'
  obtain ⟨i, e, hi, hplace, hscoped, -⟩ := Timeline.exists_place hs
  have hentry : x.start = e.timestamp := hstart.trans hscoped.start_eq
  have hiff := hscoped.stop_lt_start_iff hi
  rw [← hstart, ← hstop] at hiff
  refine ⟨k, s, i, e, hs, hnumber, hi, hplace, hscoped, hentry, hstop, hiff, ?_⟩
  intro hsorted t ht
  refine Int.not_lt.mp fun hlt => ?_
  obtain ⟨q, event, hq, hcloses, hearlier⟩ := hiff.mp ⟨t, ht, hlt⟩
  rw [hentry] at hearlier
  exact absurd hearlier (Int.not_lt.mpr (hsorted.le_of_closes hi hq hcloses))

/-- A day at the desk. -/
def deskDay : Request :=
  { options := {}, base := sampleDay, text := "9:00 Desk\n17:00 @end" }

/-- When both logs are imported, the work at the desk ends after it began, since its log is in
order of time, and the shift ends before it began, by an event of its own log. -/
theorem reached_stop_lt_start_iff_nightShift :
    (∃ row ∈ (reached (deskDay :: nightShift)).rows, ∃ x ∈ row.session.toOption,
      x.description = "Desk" ∧ ∃ t ∈ x.stop, x.start ≤ t) ∧
    ∃ row ∈ (reached (deskDay :: nightShift)).rows, ∃ x ∈ row.session.toOption,
      x.description = "Shift" ∧ ∃ r ∈ nightShift,
        StoredBy (deskDay :: nightShift) [deskDay] r x.id ∧
          ∃ i q event, r.log.events[q]? = some event ∧ Closes r.log.events q i ∧
            event.timestamp < x.start := by
  have hcalendar : ∀ r ∈ deskDay :: nightShift, ∀ s ∈ r.spans,
      IsWithinCalendar s.start s.stop := by decide +kernel
  -- what the theorem says of the session that is read of a row
  have hends : ∀ row ∈ (reached (deskDay :: nightShift)).rows, ∀ y ∈ row.session.toOption,
      ∀ before r, StoredBy (deskDay :: nightShift) before r y.id →
        ∃ i, ((∃ t ∈ y.stop, t < y.start) ↔
            ∃ q event, r.log.events[q]? = some event ∧ Closes r.log.events q i ∧
              event.timestamp < y.start) ∧
          (r.IsSorted → ∀ t ∈ y.stop, y.start ≤ t) := by
    intro row hrow y hy before' r' hstored'
    obtain ⟨x, rfl, hread, ⟨before, r, hstored⟩, hall⟩ := reached_stop_lt_start_iff _ row hrow
    have hwithin : IsWithinCalendar x.start x.stop := by
      obtain ⟨k, s, i, e, hs, -, -, -, hscoped, hstart, hstop, -⟩ := hall before r hstored
      rw [hstart, hstop, ← hscoped.start_eq]
      exact hcalendar r hstored.mem s (List.mem_of_getElem? hs)
    rw [hread hwithin] at hy
    obtain rfl : x = y := Option.some.inj hy
    obtain ⟨k, s, i, e, -, -, -, -, -, -, -, hiff, hsorted⟩ := hall before' r' hstored'
    exact ⟨i, hiff, hsorted⟩
  constructor
  · have hdesk : ∃ row ∈ (reached (deskDay :: nightShift)).rows, ∃ x ∈ row.session.toOption,
        x.description = "Desk" ∧ x.id = numberAt 0 0 ∧ x.stop.isSome := by decide +kernel
    obtain ⟨row, hrow, x, hx, hname, hid, hstop⟩ := hdesk
    obtain ⟨t, ht⟩ := Option.isSome_iff_exists.mp hstop
    have hstored : StoredBy (deskDay :: nightShift) [] deskDay x.id :=
      ⟨⟨nightShift, rfl⟩, rfl, by rw [hid]; decide +kernel⟩
    obtain ⟨i, -, hsorted⟩ := hends row hrow x hx [] deskDay hstored
    exact ⟨row, hrow, x, hx, hname, t, ht, hsorted (by decide +kernel) t ht⟩
  · have hshift : ∃ row ∈ (reached (deskDay :: nightShift)).rows, ∃ x ∈ row.session.toOption,
        x.description = "Shift" ∧ x.id = numberAt 1 0 ∧ ∃ t ∈ x.stop, t < x.start := by
      decide +kernel
    obtain ⟨row, hrow, x, hx, hname, hid, hbackwards⟩ := hshift
    obtain ⟨r, hr⟩ : ∃ r, nightShift = [r] := ⟨_, rfl⟩
    have hmem : r ∈ nightShift := by simp [hr]
    have hstored : StoredBy (deskDay :: nightShift) [deskDay] r x.id := by
      rw [hid]
      refine ⟨⟨[], by rw [hr]; rfl⟩, by decide +kernel, ?_⟩
      rw [show [deskDay] ++ [r] = deskDay :: nightShift by rw [hr]; rfl]
      decide +kernel
    obtain ⟨i, hiff, -⟩ := hends row hrow x hx [deskDay] r hstored
    obtain ⟨q, event, hq, hcloses, hearlier⟩ := hiff.mp hbackwards
    exact ⟨row, hrow, x, hx, hname, r, hmem, hstored, i, q, event, hq, hcloses, hearlier⟩

end Import

end Daybook
