import Daybook.Event.Assembly
import Daybook.Proofs.Calendar.Text
import Daybook.Proofs.Text.Words

/-!
# Timestamps read back

The timestamp of a canonical line has a date with a four-digit year and a time that is no leap
second.

* `Clock.moment_logText` : such a timestamp is read as the moment it was written for.
-/

namespace Daybook

open Text

/-! ## Timestamps -/

/-- The time as a canonical line has it, with seconds only where they are not zero. -/
def TimeOfDay.logText (t : TimeOfDay) : List Char :=
  if t.second = 0 then t.shortText else t.text

theorem DateTime.logText_eq (t : DateTime) : t.logText = t.date.text ++ ' ' :: t.time.logText := by
  unfold DateTime.logText DateTime.minuteText TimeOfDay.logText
  split <;> rfl

theorem timePart_padded {part : TimePart} {time : List Char} {n : Nat} (h : n < 100) :
    timePart part time (some (padded 2 n)) = .ok n := by
  have hbound : n < minutesBound := Nat.lt_trans h (by decide)
  simp [timePart, readNat?_padded hbound]

theorem withinLimit_of_le {part : TimePart} {n : Nat} (h : n ≤ part.limit) :
    withinLimit part n = .ok ⟨n, h⟩ :=
  dif_pos h

/-- A time that is no leap second reads back. -/
theorem timeOfText_logText {t : TimeOfDay} (h : t.second < 60) :
    timeOfText t.logText = .ok t := by
  have hh := t.hour_lt
  have hm := t.minute_lt
  have hcolon : ∀ n, ':' ∉ padded 2 n := fun n =>
    notMem_of_isDigit (fun c hc => isDigit_of_mem_padded hc) (by decide)
  -- every part is within its limit, the second because it is no leap second
  have hhour : withinLimit .hour t.hour = .ok ⟨t.hour, Nat.le_of_lt_succ hh⟩ :=
    withinLimit_of_le _
  have hminute : withinLimit .minute t.minute = .ok ⟨t.minute, Nat.le_of_lt_succ hm⟩ :=
    withinLimit_of_le _
  have hsecond : withinLimit .second t.second = .ok ⟨t.second, Nat.le_of_lt_succ h⟩ :=
    withinLimit_of_le _
  unfold TimeOfDay.logText
  split
  · next hzero =>
    -- seconds that are not written are read as zero
    have hpieces : pieces ':' t.shortText = [padded 2 t.hour, padded 2 t.minute] := by
      rw [TimeOfDay.shortText, pieces_append (hcolon _), pieces_eq_singleton (hcolon _)]
    obtain ⟨hour, minute, second, _, _, _⟩ := t
    obtain rfl : second = 0 := hzero
    simp only [timeOfText, hpieces, List.getElem?_cons_zero, List.getElem?_cons_succ,
      List.getElem?_nil, timePart_padded (n := hour) (by omega),
      timePart_padded (n := minute) (by omega)]
    simp only [timePart, bind, Except.bind, hhour, hminute, hsecond]
  · have hpieces : pieces ':' t.text =
        [padded 2 t.hour, padded 2 t.minute, padded 2 t.second] := by
      have htext : t.text =
          padded 2 t.hour ++ ':' :: (padded 2 t.minute ++ ':' :: padded 2 t.second) := by
        simp [TimeOfDay.text, TimeOfDay.shortText]
      rw [htext, pieces_append (hcolon _), pieces_append (hcolon _),
        pieces_eq_singleton (hcolon _)]
    simp only [timeOfText, hpieces, List.getElem?_cons_zero, List.getElem?_cons_succ,
      timePart_padded (n := t.hour) (by omega), timePart_padded (n := t.minute) (by omega),
      timePart_padded (n := t.second) (by omega)]
    simp only [bind, Except.bind, hhour, hminute, hsecond]

theorem isWord_of_isDigit {cs : List Char} (hne : cs ≠ [])
    (h : ∀ c ∈ cs, isDigit c = true ∨ c = '-' ∨ c = ':') : IsWord cs := by
  refine ⟨hne, fun c hc => ?_⟩
  rcases h c hc with hdigit | rfl | rfl
  · exact isBlank_eq_false_of_isDigit hdigit
  · decide
  · decide

theorem Date.isWord_text {d : Date} (h : d.FourDigit) : IsWord d.text := by
  have hpadded : ∀ {width n : Nat} {c : Char}, c ∈ padded width n → isDigit c = true :=
    fun hc => isDigit_of_mem_padded hc
  apply isWord_of_isDigit
  · simp [Date.text]
  · intro c hc
    simp only [Date.text, yearText_of_fourDigit h, List.mem_append, List.mem_cons] at hc
    rcases hc with (hc | rfl | hc) | rfl | hc
    · exact .inl (hpadded hc)
    · exact .inr (.inl rfl)
    · exact .inl (hpadded hc)
    · exact .inr (.inl rfl)
    · exact .inl (hpadded hc)

theorem TimeOfDay.isWord_logText (t : TimeOfDay) : IsWord t.logText := by
  have hpadded : ∀ {width n : Nat} {c : Char}, c ∈ padded width n → isDigit c = true :=
    fun hc => isDigit_of_mem_padded hc
  have hshort : ∀ c ∈ t.shortText, isDigit c = true ∨ c = '-' ∨ c = ':' := by
    intro c hc
    simp only [TimeOfDay.shortText, List.mem_append, List.mem_cons] at hc
    rcases hc with hc | rfl | hc
    · exact .inl (hpadded hc)
    · exact .inr (.inr rfl)
    · exact .inl (hpadded hc)
  unfold TimeOfDay.logText
  split
  · exact isWord_of_isDigit (by simp [TimeOfDay.shortText]) hshort
  · apply isWord_of_isDigit
    · simp [TimeOfDay.text]
    · intro c hc
      simp only [TimeOfDay.text, List.mem_append, List.mem_cons] at hc
      rcases hc with hc | rfl | hc
      · exact hshort c hc
      · exact .inr (.inr rfl)
      · exact .inl (hpadded hc)

theorem TimeOfDay.isTimeShape_logText (t : TimeOfDay) : isTimeShape t.logText = true := by
  unfold TimeOfDay.logText
  split
  · exact t.isTimeShape_shortText
  · exact t.isTimeShape_text

/-- A moment that a canonical line can have: its year has four digits and it is no leap second. -/
structure DateTime.Canonical (t : DateTime) : Prop where
  fourDigit : t.FourDigit
  second : t.time.second < 60

/-- The timestamp of a canonical line is read as the moment it was written for. -/
theorem Clock.moment_logText (clock : Clock) {t : DateTime} (h : t.Canonical) :
    clock.moment t.logText = .ok (t, true) := by
  have hspace : ' ' ∉ t.date.text := fun hmem =>
    absurd ((Date.isWord_text h.fourDigit).2 ' ' hmem) (by decide)
  -- the first space stands behind the date
  have hparts : timestampParts t.logText = .ok (some t.date, t.time) := by
    rw [timestampParts, DateTime.logText_eq, splitAt?_append hspace]
    simp only [Date.ofText?_text h.fourDigit.inRange, timeOfText_logText h.second]
    rfl
  rw [Clock.moment, hparts]
  rfl

end Daybook
