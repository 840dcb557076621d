import Daybook.Text.Blank
import Daybook.Text.Decimal
import Mathlib.Data.List.Basic
import Mathlib.Data.List.Induction
import Mathlib.Tactic.Ring

/-!
# Digits read back

What is written with `digits` and `padded` is read by every reader of numbers, and the order of
padded numbers as texts is the order of the numbers.

* `readNat?_padded` : a padded number reads back, `readNat?_digits` a plain one.
* `isPositive_iff` : digits with no zero in front are those that a positive number is written with.
* `padded_lt_padded_iff` : padded numbers of one width compare as texts as they do as numbers.
-/

namespace Daybook.Text

/-! ## What digits are not -/

/-- No decimal digit is white space. -/
theorem isBlank_eq_false_of_isDecimal {c : Char} (h : isDecimal c = true) :
    isBlank c = false := by
  cases hb : isBlank c with
  | false => rfl
  | true =>
    -- white space is so little that every code point of it can be tried
    have hspace : c.toNat ∈
        [9, 10, 11, 12, 13, 0x20, 0x85, 0xA0, 0x1680, 0x2000, 0x2001, 0x2002, 0x2003, 0x2004,
         0x2005, 0x2006, 0x2007, 0x2008, 0x2009, 0x200A, 0x2028, 0x2029, 0x202F, 0x205F,
         0x3000] := by
      simp only [isBlank, Bool.or_eq_true, Bool.and_eq_true, decide_eq_true_eq,
        beq_iff_eq] at hb
      simp only [List.mem_cons, List.not_mem_nil, or_false]
      omega
    have hnone : ∀ n ∈
        [9, 10, 11, 12, 13, 0x20, 0x85, 0xA0, 0x1680, 0x2000, 0x2001, 0x2002, 0x2003, 0x2004,
         0x2005, 0x2006, 0x2007, 0x2008, 0x2009, 0x200A, 0x2028, 0x2029, 0x202F, 0x205F,
         0x3000],
        ((decide (48 ≤ n) && decide (n ≤ 57)) ||
          decimalZeros.any fun first => decide (first ≤ n) && decide (n < first + 10)) = false := by
      decide
    have := hnone c.toNat hspace
    simp only [isDecimal, isDigit] at h
    simp_all

theorem isBlank_eq_false_of_isDigit {c : Char} (h : isDigit c = true) : isBlank c = false :=
  isBlank_eq_false_of_isDecimal (isDecimal_of_isDigit h)

/-- A run of digits does not contain a character that is no digit. -/
theorem notMem_of_isDigit {cs : List Char} {d : Char} (h : ∀ c ∈ cs, isDigit c = true)
    (hd : isDigit d = false) : d ∉ cs := by
  intro hmem
  simp [h d hmem] at hd

/-! ## The digits of a number -/

theorem digitValue_lt_ten {c : Char} (h : isDigit c = true) : digitValue c < 10 := by
  simp only [isDigit, Bool.and_eq_true, decide_eq_true_eq] at h
  unfold digitValue
  omega

private theorem foldl_digits (n : Nat) (cs : List Char) :
    cs.foldl (fun n c => n * 10 + digitValue c) n = n * 10 ^ cs.length + value cs := by
  induction cs generalizing n with
  | nil => simp [value]
  | cons d ds ih =>
    have hvalue : value (d :: ds) = digitValue d * 10 ^ ds.length + value ds := by
      simpa [value] using ih (digitValue d)
    rw [List.foldl_cons, ih, hvalue, List.length_cons]
    ring

theorem value_cons (c : Char) (cs : List Char) :
    value (c :: cs) = digitValue c * 10 ^ cs.length + value cs := by
  simpa [value] using foldl_digits (digitValue c) cs

/-- A run of digits counts less than the power of ten with its length. -/
theorem value_lt {cs : List Char} (h : ∀ c ∈ cs, isDigit c = true) :
    value cs < 10 ^ cs.length := by
  induction cs with
  | nil => simp [value]
  | cons c cs ih =>
    -- the first digit is at most nine, and the others stay below their power by induction
    have hc := digitValue_lt_ten (h c List.mem_cons_self)
    have hcs := ih fun d hd => h d (List.mem_cons_of_mem _ hd)
    rw [value_cons, List.length_cons, Nat.pow_succ]
    have : digitValue c * 10 ^ cs.length ≤ 9 * 10 ^ cs.length :=
      Nat.mul_le_mul_right _ (by omega)
    omega

/-- A padded number, from its last digit. -/
theorem padded_succ {width : Nat} (hw : 0 < width) (n : Nat) :
    padded (width + 1) n = padded width (n / 10) ++ [digitChar n] := by
  by_cases hn : n < 10
  -- below ten the number is its own last digit, and only zeros stand before it
  · have hzero : n / 10 = 0 := by omega
    obtain ⟨k, rfl⟩ : ∃ k, width = k + 1 := ⟨width - 1, by omega⟩
    have hd : digits n = [digitChar n] := by rw [digits, if_pos hn]
    have h0 : digits (n / 10) = ['0'] := by rw [hzero, digits]; rfl
    simp only [padded, hd, h0, List.length_singleton, Nat.add_sub_cancel]
    rw [List.replicate_succ']
  · have hmod : digitChar (n % 10) = digitChar n := by simp [digitChar]
    have hd : digits n = digits (n / 10) ++ [digitChar n] := by rw [digits, if_neg hn, hmod]
    simp [padded, hd, Nat.add_sub_add_right]

theorem padded_one {n : Nat} (h : n < 10) : padded 1 n = [digitChar n] := by
  have hd : digits n = [digitChar n] := by rw [digits, if_pos h]
  simp [padded, hd]

/-- A number below a hundred, padded to two digits. -/
theorem padded_two {n : Nat} (h : n < 100) :
    padded 2 n = [digitChar (n / 10), digitChar n] := by
  rw [padded_succ (by decide), padded_one (by omega)]
  rfl

/-- A number below ten thousand, padded to four digits. -/
theorem padded_four {n : Nat} (h : n < 10000) :
    padded 4 n =
      [digitChar (n / 10 / 10 / 10), digitChar (n / 10 / 10), digitChar (n / 10), digitChar n] := by
  rw [padded_succ (by decide), padded_succ (by decide), padded_two (by omega)]
  rfl

theorem isDigit_of_mem_padded {width n : Nat} {c : Char} (h : c ∈ padded width n) :
    isDigit c = true := by
  rcases List.mem_append.mp h with h | h
  · rw [List.eq_of_mem_replicate h]
    decide
  · exact isDigit_of_mem_digits h

theorem padded_ne_nil (width n : Nat) : padded width n ≠ [] := by
  simp [padded, digits_ne_nil]

/-- A number padded to a width that suffices for it has that width. -/
theorem length_padded {width n : Nat} (hw : 0 < width) (h : n < 10 ^ width) :
    (padded width n).length = width := by
  induction width generalizing n with
  | zero => omega
  | succ width ih =>
    cases width with
    | zero => rw [padded_one (by simpa using h), List.length_singleton]
    | succ width =>
      -- the number without its last digit fits the smaller width
      have hdiv : n / 10 < 10 ^ (width + 1) := by rw [Nat.pow_succ] at h; omega
      rw [padded_succ (by omega), List.length_append, ih (by omega) hdiv]
      rfl

/-- A word with anything but digits in it is no numeral. -/
theorem ofNat_ne {word : String} (h : word.toList.all isDigit = false) (n : Nat) :
    ofNat n ≠ word := by
  rintro rfl
  rw [ofNat, String.toList_ofList,
    List.all_eq_true.mpr fun c hc => isDigit_of_mem_digits hc] at h
  exact Bool.noConfusion h

/-! ## Reading back -/

theorem value_padded (width n : Nat) : value (padded width n) = n := by
  have hzeros : ∀ k (cs : List Char), value (List.replicate k '0' ++ cs) = value cs := by
    intro k cs
    induction k with
    | zero => rfl
    | succ k ih =>
      rw [List.replicate_succ, List.cons_append, value_cons, ih]
      simp [show digitValue '0' = 0 from rfl]
  rw [padded, hzeros, value_digits]

/-- A run of digits is read if it is below the bound. -/
theorem readNat?_eq_ite_of_isDigit (bound : Nat) {cs : List Char} (hne : cs ≠ [])
    (h : ∀ c ∈ cs, isDigit c = true) :
    readNat? bound cs = if value cs < bound then some (value cs) else none := by
  -- a digit stands where a plus sign could, so all of the text is the numeral
  have hplus : ∀ ds, cs ≠ '+' :: ds := by
    rintro ds rfl
    exact absurd (h '+' List.mem_cons_self) (by decide)
  have hall := List.all_eq_true.mpr h
  simp [readNat?, hne, hall]

theorem readNat?_of_isDigit {bound : Nat} {cs : List Char} (hne : cs ≠ [])
    (h : ∀ c ∈ cs, isDigit c = true) (hb : value cs < bound) :
    readNat? bound cs = some (value cs) := by
  rw [readNat?_eq_ite_of_isDigit bound hne h, if_pos hb]

theorem lt_of_readNat? {bound : Nat} {cs : List Char} {n : Nat} (h : readNat? bound cs = some n) :
    n < bound := by
  unfold readNat? at h
  simp only [Option.ite_none_right_eq_some, Option.some.injEq] at h
  obtain ⟨⟨-, -, hlt⟩, rfl⟩ := h
  exact hlt

/-- A padded number reads back. -/
theorem readNat?_padded {bound width n : Nat} (h : n < bound) :
    readNat? bound (padded width n) = some n := by
  have hread : readNat? bound (padded width n) = some (value (padded width n)) :=
    readNat?_of_isDigit (padded_ne_nil width n) (fun c hc => isDigit_of_mem_padded hc)
      (by rwa [value_padded])
  rwa [value_padded] at hread

/-- A plain number reads back. -/
theorem readNat?_digits {bound n : Nat} (h : n < bound) : readNat? bound (digits n) = some n := by
  have hread : readNat? bound (digits n) = some (value (digits n)) :=
    readNat?_of_isDigit (digits_ne_nil n) (fun c hc => isDigit_of_mem_digits hc)
      (by rwa [value_digits])
  rwa [value_digits] at hread

/-! ## Digits with no zero in front -/

theorem digitChar_digitValue {c : Char} (h : isDigit c = true) : digitChar (digitValue c) = c := by
  have hlt := digitValue_lt_ten h
  simp only [isDigit, Bool.and_eq_true, decide_eq_true_eq] at h
  have hcode : 48 + digitValue c % 10 = c.toNat := by
    unfold digitValue at *
    omega
  rw [digitChar, hcode, Char.ofNat_toNat]

/-- A run of ASCII digits with no zero in front. -/
structure IsPositive (cs : List Char) : Prop where
  ne_nil : cs ≠ []
  digit : ∀ c ∈ cs, isDigit c = true
  front : cs.head? ≠ some '0'

/-- A positive number is written with no zero in front. -/
theorem isPositive_digits {n : Nat} (h : 0 < n) : IsPositive (digits n) where
  ne_nil := digits_ne_nil n
  digit _ hc := isDigit_of_mem_digits hc
  front := by
    fun_induction digits n with
    | case1 n hn =>
      -- a zero would count nothing, but the one digit counts `n`
      intro hzero
      have hchar : digitChar n = '0' := by simpa using hzero
      have hvalue : digitValue (digitChar n) = 0 := by rw [hchar]; rfl
      rw [digitValue_digitChar hn] at hvalue
      omega
    | case2 n hn ih =>
      -- the number without its last digit is positive as well
      rw [List.head?_append_of_ne_nil _ (digits_ne_nil _)]
      exact ih (by omega)

theorem IsPositive.value_pos {cs : List Char} (h : IsPositive cs) : 0 < value cs := by
  cases cs with
  | nil => exact absurd rfl h.ne_nil
  | cons c cs =>
    have hc : digitChar (digitValue c) = c := digitChar_digitValue (h.digit c List.mem_cons_self)
    have hpos : 0 < digitValue c := by
      apply Nat.pos_of_ne_zero
      intro hzero
      rw [hzero] at hc
      exact h.front (by rw [← hc]; rfl)
    rw [value_cons]
    exact Nat.add_pos_left (Nat.mul_pos hpos (Nat.pow_pos (by decide))) _

/-- With no zero in front, the digits are those that their number is written with. -/
theorem IsPositive.digits_value {cs : List Char} (h : IsPositive cs) : digits (value cs) = cs := by
  -- numbers are written from their last digit, so the induction removes digits at the end
  induction cs using List.reverseRecOn with
  | nil => exact absurd rfl h.ne_nil
  | append_singleton ds d ih =>
    have hd : isDigit d = true := h.digit d (by simp)
    have hlast := digitValue_lt_ten hd
    rw [value_append_singleton]
    by_cases hds : ds = []
    · subst hds
      have hvalue : value [] * 10 + digitValue d = digitValue d := by simp [value]
      rw [hvalue, digits, if_pos hlast, digitChar_digitValue hd, List.nil_append]
    · have hfront : ds.head? ≠ some '0' := by
        rw [← List.head?_append_of_ne_nil ds hds]
        exact h.front
      have hleft : IsPositive ds := ⟨hds, fun c hc => h.digit c (List.mem_append_left _ hc), hfront⟩
      -- what stands before the last digit counts something, so the number has two digits or more
      have hpos := hleft.value_pos
      have hdiv : (value ds * 10 + digitValue d) / 10 = value ds := by omega
      have hmod : (value ds * 10 + digitValue d) % 10 = digitValue d := by omega
      rw [digits, if_neg (by omega), hdiv, hmod, ih hleft, digitChar_digitValue hd]

/-- Digits with no zero in front are those that a positive number is written with. -/
theorem isPositive_iff {cs : List Char} : IsPositive cs ↔ ∃ n, 0 < n ∧ digits n = cs := by
  constructor
  · intro h
    exact ⟨value cs, h.value_pos, h.digits_value⟩
  · rintro ⟨n, hpos, rfl⟩
    exact isPositive_digits hpos

/-! ## The order of texts -/

/-- Texts that start with texts of one length compare by these first. -/
theorem append_lt_append_iff {as bs cs ds : List Char} (h : as.length = bs.length) :
    as ++ cs < bs ++ ds ↔ as < bs ∨ as = bs ∧ cs < ds := by
  induction as generalizing bs with
  | nil =>
    cases bs with
    | nil => simp
    | cons b bs => simp at h
  | cons a as ih =>
    cases bs with
    | nil => simp at h
    | cons b bs =>
      simp only [List.length_cons, Nat.add_right_cancel_iff] at h
      simp only [List.cons_append, List.cons_lt_cons_iff, ih h, List.cons.injEq]
      constructor
      · rintro (hab | ⟨rfl, hlt | ⟨rfl, hlt⟩⟩)
        · exact .inl (.inl hab)
        · exact .inl (.inr ⟨rfl, hlt⟩)
        · exact .inr ⟨⟨rfl, rfl⟩, hlt⟩
      · rintro ((hab | ⟨rfl, hlt⟩) | ⟨⟨rfl, rfl⟩, hlt⟩)
        · exact .inl hab
        · exact .inr ⟨rfl, .inl hlt⟩
        · exact .inr ⟨rfl, .inr ⟨rfl, hlt⟩⟩

/-- Runs of digits of one length compare as texts as they do as numbers. -/
theorem lt_iff_value_lt {as bs : List Char} (h : as.length = bs.length)
    (ha : ∀ c ∈ as, isDigit c = true) (hb : ∀ c ∈ bs, isDigit c = true) :
    as < bs ↔ value as < value bs := by
  induction as generalizing bs with
  | nil =>
    cases bs with
    | nil => simp
    | cons b bs => simp at h
  | cons a as ih =>
    cases bs with
    | nil => simp at h
    | cons b bs =>
      simp only [List.length_cons, Nat.add_right_cancel_iff] at h
      have has := fun c hc => ha c (List.mem_cons_of_mem _ hc)
      have hbs := fun c hc => hb c (List.mem_cons_of_mem _ hc)
      have hva := value_lt has
      have hvb := value_lt hbs
      have hda := ha a List.mem_cons_self
      have hdb := hb b List.mem_cons_self
      rw [List.cons_lt_cons_iff, ih h has hbs, value_cons, value_cons, h]
      rw [h] at hva
      simp only [isDigit, Bool.and_eq_true, decide_eq_true_eq] at hda hdb
      have hchar : a < b ↔ digitValue a < digitValue b := by
        rw [show a < b ↔ a.toNat < b.toNat from Iff.rfl]
        unfold digitValue
        omega
      have hsame : a = b ↔ digitValue a = digitValue b := by
        rw [← Char.toNat_inj]
        unfold digitValue
        omega
      -- characters compare as the digits that they are
      rw [hchar, hsame]
      generalize digitValue a = x, digitValue b = y, 10 ^ bs.length = p at *
      -- the first digits decide unless they are equal
      rcases Nat.lt_trichotomy x y with hlt | rfl | hgt
      · have : (x + 1) * p ≤ y * p := Nat.mul_le_mul_right _ hlt
        rw [Nat.add_mul] at this
        omega
      · omega
      · have : (y + 1) * p ≤ x * p := Nat.mul_le_mul_right _ hgt
        rw [Nat.add_mul] at this
        omega

/-- Padded numbers of one width compare as texts as they do as numbers. -/
theorem padded_lt_padded_iff {width m n : Nat} (hw : 0 < width) (hm : m < 10 ^ width)
    (hn : n < 10 ^ width) : padded width m < padded width n ↔ m < n := by
  rw [lt_iff_value_lt (by rw [length_padded hw hm, length_padded hw hn])
    (fun c hc => isDigit_of_mem_padded hc) (fun c hc => isDigit_of_mem_padded hc),
    value_padded, value_padded]

/-- Padded numbers are equal as texts only if they are equal. -/
theorem padded_inj {width m n : Nat} : padded width m = padded width n ↔ m = n := by
  constructor
  · intro h
    rw [← value_padded width m, h, value_padded]
  · rintro rfl
    rfl

end Daybook.Text
