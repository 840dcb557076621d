import Daybook.Calendar.Text
import Daybook.Line.Token
import Daybook.Proofs.Text.Digits

/-!
# Dates and moments read back

A date or a moment that is written down is read as what it was, and the texts of moments in
four-digit years are in the order of the moments.

* `Date.ofText?_text` and `DateTime.ofText?_isoText` : what is written reads back.
* `fourDigit_of_isDateShape` : a date of the shape that a log admits has a four-digit year.
* `isoText_lt_isoText_iff` : texts compare as moments do.
-/

namespace Daybook

open Text

/-! ## Four-digit years -/

/-- The year is written with four digits and no sign. -/
def Date.FourDigit (d : Date) : Prop :=
  0 ≤ d.year ∧ d.year < 10000

instance (d : Date) : Decidable d.FourDigit := inferInstanceAs (Decidable (_ ∧ _))

/-- The moment lies in a year that is written with four digits. -/
def DateTime.FourDigit (t : DateTime) : Prop :=
  t.date.FourDigit

instance (t : DateTime) : Decidable t.FourDigit := inferInstanceAs (Decidable t.date.FourDigit)

theorem Date.FourDigit.inRange {d : Date} (h : d.FourDigit) : d.InRange := by
  unfold Date.FourDigit at h
  simp only [Date.InRange, Date.yearRange]
  omega

theorem Date.month_lt_hundred (d : Date) : d.month < 100 := by
  have := d.civil
  unfold IsCivil at this
  omega

theorem Date.day_lt_hundred (d : Date) : d.day < 100 := by
  have := d.civil
  have := daysInMonth_le d.year d.month
  unfold IsCivil at *
  omega

theorem yearText_of_fourDigit {year : Int} (h : 0 ≤ year ∧ year < 10000) :
    yearText year = padded 4 year.natAbs :=
  if_pos h

/-! ## Fields -/

/-- A run of digits is taken as a whole, if the limit or what follows ends it. -/
theorem takeNumber_append {limit : Nat} {ds rest : List Char} (hne : ds ≠ [])
    (hds : ∀ c ∈ ds, isDigit c = true) (hlimit : ds.length ≤ limit)
    (hend : ds.length = limit ∨ ∀ c ∈ rest.head?, isDigit c = false) :
    takeNumber limit (ds ++ rest) = some (value ds, rest) := by
  -- the run ends at the limit or at the first character that is no digit
  have htake : ((ds ++ rest).take limit).takeWhile isDigit = ds := by
    rw [List.take_append, List.take_of_length_le hlimit, List.takeWhile_append_of_pos hds]
    rcases hend with hfull | hnext
    · simp [hfull]
    · cases rest with
      | nil => simp
      | cons c cs =>
        have hc := hnext c rfl
        cases h : limit - ds.length <;> simp [hc]
  simp [takeNumber, htake, hne]

/-- A field of two digits is taken, whatever follows. -/
theorem takeField_padded {n : Nat} (h : n < 100) (rest : List Char) :
    takeField (padded 2 n ++ rest) = some (n, rest) := by
  have hlen : (padded 2 n).length = 2 := length_padded (by decide) h
  have htrim : trimLeft (padded 2 n ++ rest) = padded 2 n ++ rest := by
    rw [padded_two h]
    simp [trimLeft, isBlank_eq_false_of_isDigit (isDigit_digitChar _)]
  rw [takeField, htrim, takeNumber_append (padded_ne_nil 2 n)
    (fun c hc => isDigit_of_mem_padded hc) (by omega) (.inl hlen), value_padded]

/-- A year that starts with a digit has no sign, and at most four digits are taken. -/
theorem takeYear_cons_of_isDecimal {c : Char} (hc : isDecimal c = true) (cs : List Char) :
    takeYear (c :: cs) = (takeNumber 4 (c :: cs)).map fun (n, rest) => ((n : Int), rest) := by
  have htrim : trimLeft (c :: cs) = c :: cs := by
    rw [trimLeft, List.dropWhile_cons_of_neg (by simp [isBlank_eq_false_of_isDecimal hc])]
  unfold takeYear
  rw [htrim]
  split
  -- neither sign is a digit
  · next heq =>
    obtain ⟨rfl, -⟩ := List.cons.inj heq
    exact absurd hc (by decide)
  · next heq =>
    obtain ⟨rfl, -⟩ := List.cons.inj heq
    exact absurd hc (by decide)
  · rfl

/-- A year is taken back, whether it carries a sign or not. -/
theorem takeYear_yearText (year : Int) (rest : List Char) :
    takeYear (yearText year ++ '-' :: rest) = some (year, '-' :: rest) := by
  have hhyphen : ∀ c ∈ ('-' :: rest).head?, isDigit c = false := by
    rintro c hc
    obtain rfl : '-' = c := by simpa using hc
    decide
  have hds : ∀ c ∈ padded 4 year.natAbs, isDigit c = true := fun c hc => isDigit_of_mem_padded hc
  -- the hyphen ends the digits, whatever the limit is
  have htake : ∀ limit, (padded 4 year.natAbs).length ≤ limit →
      takeNumber limit (padded 4 year.natAbs ++ '-' :: rest) = some (year.natAbs, '-' :: rest) := by
    intro limit hlimit
    rw [takeNumber_append (padded_ne_nil 4 year.natAbs) hds hlimit (.inr hhyphen), value_padded]
  by_cases hfour : 0 ≤ year ∧ year < 10000
  · have hlen : (padded 4 year.natAbs).length = 4 := length_padded (by decide) (by omega)
    have hplain := htake 4 (Nat.le_of_eq hlen)
    have hpad := padded_four (n := year.natAbs) (by omega)
    rw [yearText_of_fourDigit hfour]
    rw [hpad, List.cons_append] at hplain ⊢
    rw [takeYear_cons_of_isDecimal (isDecimal_of_isDigit (isDigit_digitChar _)), hplain]
    simp only [Option.map_some, Option.some.injEq, Prod.mk.injEq, and_true]
    omega
  -- behind a sign any number of digits is taken
  · have hsigned := htake (padded 4 year.natAbs ++ '-' :: rest).length (by simp)
    rw [yearText, if_neg hfour]
    by_cases hneg : year < 0
    · rw [if_pos hneg, List.cons_append, takeYear]
      simp only [trimLeft, List.dropWhile_cons, show isBlank '-' = false from by decide]
      rw [if_neg (by decide)]
      simp only [hsigned, Option.map_some, Option.some.injEq, Prod.mk.injEq, and_true]
      omega
    · rw [if_neg hneg, List.cons_append, takeYear]
      simp only [trimLeft, List.dropWhile_cons, show isBlank '+' = false from by decide]
      rw [if_neg (by decide)]
      simp only [hsigned, Option.map_some, Option.some.injEq, Prod.mk.injEq, and_true]
      omega

@[simp]
theorem takeSeparator_cons (c : Char) (rest : List Char) :
    takeSeparator false c (c :: rest) = some rest := by
  simp [takeSeparator]

/-! ## Dates and moments -/

theorem Date.ofCivil?_self (d : Date) : Date.ofCivil? d.year d.month d.day = some d := by
  rw [Date.ofCivil?, dif_pos d.civil]

theorem TimeOfDay.ofParts?_self (t : TimeOfDay) :
    TimeOfDay.ofParts? t.hour t.minute t.second = some t := by
  rw [TimeOfDay.ofParts?, dif_pos ⟨t.hour_lt, t.minute_lt, t.second_le⟩]

/-- A date in the readable range is taken back, whatever follows. -/
theorem takeDate_text {d : Date} (h : d.InRange) (rest : List Char) :
    takeDate false (d.text ++ rest) = some (d, rest) := by
  have htext : d.text ++ rest =
      yearText d.year ++ '-' :: (padded 2 d.month ++ '-' :: (padded 2 d.day ++ rest)) := by
    simp [Date.text]
  rw [htext, takeDate]
  simp [takeYear_yearText, takeField_padded d.month_lt_hundred, takeField_padded d.day_lt_hundred,
    d.ofCivil?_self, h]

/-- A time is taken back, whatever follows. -/
theorem takeTime_text (t : TimeOfDay) (rest : List Char) :
    takeTime (t.text ++ rest) = some (t, rest) := by
  have hh := t.hour_lt
  have hm := t.minute_lt
  have hs := t.second_le
  have htext : t.text ++ rest =
      padded 2 t.hour ++ ':' :: (padded 2 t.minute ++ ':' :: (padded 2 t.second ++ rest)) := by
    simp [TimeOfDay.text, TimeOfDay.shortText]
  rw [htext, takeTime]
  simp [takeField_padded (n := t.hour) (by omega), takeField_padded (n := t.minute) (by omega),
    takeField_padded (n := t.second) (by omega), t.ofParts?_self]

/-- A date reads back. -/
theorem Date.ofText?_text {d : Date} (h : d.InRange) : Date.ofText? d.text = some d := by
  have htake := takeDate_text h []
  rw [List.append_nil] at htake
  rw [Date.ofText?, htake]

/-- A moment reads back. -/
theorem DateTime.ofText?_isoText {t : DateTime} (h : t.date.InRange) :
    DateTime.ofText? t.isoText = some t := by
  have htime := takeTime_text t.time []
  rw [List.append_nil] at htime
  rw [DateTime.isoText, DateTime.ofText?, takeDate_text h]
  simp [htime]

/-! ## Shapes -/

theorem isDecimal_digitChar (n : Nat) : isDecimal (digitChar n) = true :=
  isDecimal_of_isDigit (isDigit_digitChar n)

/-- A date in a four-digit year has the shape of a date. -/
theorem isDateShape_text {d : Date} (h : d.FourDigit) : isDateShape d.text = true := by
  have hyear : d.year.natAbs < 10000 := by unfold Date.FourDigit at h; omega
  rw [Date.text, yearText_of_fourDigit h, padded_four hyear, padded_two d.month_lt_hundred,
    padded_two d.day_lt_hundred]
  simp [isDateShape, isDecimal_digitChar]

theorem TimeOfDay.isTimeShape_shortText (t : TimeOfDay) : isTimeShape t.shortText = true := by
  have hh := t.hour_lt
  have hm := t.minute_lt
  rw [TimeOfDay.shortText, padded_two (n := t.hour) (by omega),
    padded_two (n := t.minute) (by omega)]
  simp [isTimeShape, isDecimal_digitChar]

theorem TimeOfDay.isTimeShape_text (t : TimeOfDay) : isTimeShape t.text = true := by
  have hh := t.hour_lt
  have hm := t.minute_lt
  have hs := t.second_le
  rw [TimeOfDay.text, TimeOfDay.shortText, padded_two (n := t.hour) (by omega),
    padded_two (n := t.minute) (by omega), padded_two (n := t.second) (by omega)]
  simp [isTimeShape, isDecimal_digitChar]

theorem takeNumber_bound {limit n : Nat} {cs rest : List Char}
    (h : takeNumber limit cs = some (n, rest)) : n < 10 ^ limit := by
  simp only [takeNumber] at h
  split at h
  · simp at h
  · simp only [Option.some.injEq, Prod.mk.injEq] at h
    obtain ⟨rfl, -⟩ := h
    -- at most `limit` digits are taken, and their value is below the power of ten
    have hlt := value_lt fun c hc =>
      List.all_eq_true.mp (List.all_takeWhile (l := cs.take limit) (p := isDigit)) c hc
    have hlen : ((cs.take limit).takeWhile isDigit).length ≤ limit :=
      Nat.le_trans (List.takeWhile_sublist _).length_le (List.length_take_le limit cs)
    exact Nat.lt_of_lt_of_le hlt (Nat.pow_le_pow_right (by decide) hlen)

/-- A date is read from the year that its text starts with. -/
theorem exists_takeYear_of_ofText? {cs : List Char} {d : Date} (h : Date.ofText? cs = some d) :
    ∃ rest, takeYear cs = some (d.year, rest) := by
  unfold Date.ofText? at h
  split at h
  · next date hdate =>
    obtain rfl : date = d := by simpa using h
    simp only [takeDate, Option.bind_eq_bind, Option.bind_eq_some_iff] at hdate
    obtain ⟨⟨year, rest⟩, hyear, r₂, -, ⟨month, r₃⟩, -, r₄, -, ⟨day, r₅⟩, -, found, hfound,
      hrange⟩ := hdate
    split at hrange
    · simp only [Option.some.injEq, Prod.mk.injEq] at hrange
      obtain ⟨rfl, -⟩ := hrange
      unfold Date.ofCivil? at hfound
      split at hfound
      · obtain rfl := Option.some.inj hfound
        exact ⟨rest, hyear⟩
      · simp at hfound
    · simp at hrange
  · simp at h

/-- A date of the shape that a log admits has a four-digit year: no sign fits the shape. -/
theorem fourDigit_of_isDateShape {cs : List Char} {d : Date} (hshape : isDateShape cs = true)
    (h : Date.ofText? cs = some d) : d.FourDigit := by
  obtain ⟨c, cs, rfl, hc⟩ : ∃ c rest, cs = c :: rest ∧ isDecimal c = true := by
    unfold isDateShape at hshape
    split at hshape
    · next a b c d e f g h => exact ⟨a, _, rfl, by simp_all⟩
    · simp at hshape
  obtain ⟨rest, hyear⟩ := exists_takeYear_of_ofText? h
  rw [takeYear_cons_of_isDecimal hc, Option.map_eq_some_iff] at hyear
  obtain ⟨⟨n, rest'⟩, hn, heq⟩ := hyear
  have hbound : n < 10 ^ 4 := takeNumber_bound hn
  have hn : (n : Int) = d.year := congrArg Prod.fst heq
  unfold Date.FourDigit
  omega

/-! ## The order of texts -/

theorem cons_lt_cons_self_iff (c : Char) (as bs : List Char) : c :: as < c :: bs ↔ as < bs := by
  rw [List.cons_lt_cons_iff]
  simp

/-- A field of two digits decides the order, or what follows it does. -/
theorem field_lt_field_iff {m n : Nat} (hm : m < 100) (hn : n < 100) (as bs : List Char) :
    padded 2 m ++ as < padded 2 n ++ bs ↔ m < n ∨ m = n ∧ as < bs := by
  have hlen : (padded 2 m).length = (padded 2 n).length := by
    rw [length_padded (by decide) hm, length_padded (by decide) hn]
  rw [append_lt_append_iff hlen, padded_lt_padded_iff (by decide) hm hn, padded_inj]

/-- Dates in four-digit years decide the order of texts that start with them. -/
theorem Date.text_append_lt_iff {a b : Date} (ha : a.FourDigit) (hb : b.FourDigit)
    (as bs : List Char) : a.text ++ as < b.text ++ bs ↔ a < b ∨ a = b ∧ as < bs := by
  have hya : a.year.natAbs < 10 ^ 4 := by unfold Date.FourDigit at ha; omega
  have hyb : b.year.natAbs < 10 ^ 4 := by unfold Date.FourDigit at hb; omega
  have hlen : (padded 4 a.year.natAbs).length = (padded 4 b.year.natAbs).length := by
    rw [length_padded (by decide) hya, length_padded (by decide) hyb]
  -- year, month and day have fixed widths, so they decide one after the other
  have htext : a.text ++ as < b.text ++ bs ↔
      a.year.natAbs < b.year.natAbs ∨ a.year.natAbs = b.year.natAbs ∧
        (a.month < b.month ∨ a.month = b.month ∧
          (a.day < b.day ∨ a.day = b.day ∧ as < bs)) := by
    simp only [Date.text, yearText_of_fourDigit ha, yearText_of_fourDigit hb, List.append_assoc,
      List.cons_append]
    rw [append_lt_append_iff hlen, padded_lt_padded_iff (by decide) hya hyb, padded_inj,
      cons_lt_cons_self_iff, field_lt_field_iff a.month_lt_hundred b.month_lt_hundred,
      cons_lt_cons_self_iff, field_lt_field_iff a.day_lt_hundred b.day_lt_hundred]
  have hca := a.civil
  have hcb := b.civil
  have hda := daysInMonth_le a.year a.month
  have hdb := daysInMonth_le b.year b.month
  unfold IsCivil at hca hcb
  unfold Date.FourDigit at ha hb
  -- the rank counts years, months and days in the same order
  rw [htext, ← Date.rank_inj, show a < b ↔ a.rank < b.rank from Iff.rfl]
  unfold Date.rank
  by_cases hrest : as < bs
  · simp only [hrest, and_true]
    omega
  · simp only [hrest, and_false, or_false]
    omega

/-- Times of day compare as texts as they do as times. -/
theorem TimeOfDay.text_lt_text_iff (a b : TimeOfDay) : a.text < b.text ↔ a.rank < b.rank := by
  have := a.hour_lt
  have := a.minute_lt
  have := a.second_le
  have := b.hour_lt
  have := b.minute_lt
  have := b.second_le
  have htext : a.text < b.text ↔ a.hour < b.hour ∨ a.hour = b.hour ∧
      (a.minute < b.minute ∨ a.minute = b.minute ∧ a.second < b.second) := by
    simp only [TimeOfDay.text, TimeOfDay.shortText, List.append_assoc, List.cons_append]
    rw [field_lt_field_iff (by omega) (by omega), cons_lt_cons_self_iff,
      field_lt_field_iff (by omega) (by omega), cons_lt_cons_self_iff,
      padded_lt_padded_iff (by decide) (by omega) (by omega)]
  rw [htext]
  unfold TimeOfDay.rank
  omega

/-- Moments in four-digit years compare as texts as they do as moments. -/
theorem DateTime.isoText_lt_isoText_iff {a b : DateTime} (ha : a.FourDigit) (hb : b.FourDigit) :
    a.isoText < b.isoText ↔ a < b := by
  have hta := a.time.rank_lt
  have htb := b.time.rank_lt
  rw [DateTime.isoText, DateTime.isoText, Date.text_append_lt_iff ha hb, cons_lt_cons_self_iff,
    TimeOfDay.text_lt_text_iff, ← Date.rank_inj, show a < b ↔ a.rank < b.rank from Iff.rfl,
    show a.date < b.date ↔ a.date.rank < b.date.rank from Iff.rfl]
  unfold DateTime.rank
  omega

end Daybook
