import Daybook.Proofs.Line.Grammar

/-!
# Words that do not fit

A word behind the timestamp of a line does not fit when it can be no part of any line, or when it is
plain and a note stands before it. The reader of a line stops at the first word that does not
fit, since all that stands before it could be a line of its own.

* `classify_eq_error_iff` : the words that can be no part of a line.
* `lineTokens_error` : where the reader stops, and why.
-/

namespace Daybook

open Text

/-! ## Faulty words -/

/-- The word can be no part of a line: there is a hash in it, or a sign stands in front and the rest
is not what the sign asks for. -/
inductive IsFault : List Char → Cause → Prop where
  | hash {w : List Char} (h : '#' ∈ w) : IsFault w (.hashInWord (String.ofList w))
  | suffix {name : List Char} (hhash : '#' ∉ name) (h : ¬ IsStateName name) :
      IsFault ('-' :: '>' :: name) (.badSuffix (String.ofList name))
  | project : IsFault ['@'] .emptyProject
  | tag : IsFault ['+'] .emptyTag
  | estimate : IsFault ['~'] .emptyEstimate
  | unclosed {rest : List Char} (hhash : '#' ∉ rest) (h : rest.getLast? ≠ some ')') :
      IsFault ('(' :: rest) (.unclosed (String.ofList ('(' :: rest)))

theorem closed?_eq_none_iff {cs : List Char} : closed? cs = none ↔ cs.getLast? ≠ some ')' := by
  unfold closed?
  split
  · next h => simp [h]
  · next h => simp [h]

/-- A word that the reader refuses on its own can be no part of a line. -/
theorem isFault_of_classify {w : List Char} {cause : Cause} (h : classify w = .error cause) :
    IsFault w cause := by
  unfold classify at h
  split at h
  · next hhash =>
    obtain rfl := Except.error.inj h
    exact .hash (by simpa using hhash)
  · next hhash =>
    have hnot : '#' ∉ w := by simpa using hhash
    -- the signs, in the order in which the reader looks for them
    split at h
    · next name =>
      split at h
      · simp at h
      · next hstate =>
        obtain rfl := Except.error.inj h
        rw [isSome_ofSuffix?_iff] at hstate
        exact .suffix (fun hmem => hnot (by simp [hmem])) hstate
    · split at h
      · next hnil =>
        obtain rfl := Except.error.inj h
        exact hnil ▸ .project
      · simp at h
    · split at h
      · next hnil =>
        obtain rfl := Except.error.inj h
        exact hnil ▸ .tag
      · simp at h
    · split at h
      · next hnil =>
        obtain rfl := Except.error.inj h
        exact hnil ▸ .estimate
      · simp at h
    · next rest =>
      split at h
      · simp at h
      · next hclosed =>
        obtain rfl := Except.error.inj h
        exact .unclosed (fun hmem => hnot (by simp [hmem])) (closed?_eq_none_iff.mp hclosed)
    · simp at h

/-- A word that can be no part of a line is refused on its own. -/
theorem IsFault.classify_eq {w : List Char} {cause : Cause} (h : IsFault w cause) :
    classify w = .error cause := by
  cases h with
  | hash h => simp [classify, h]
  | @suffix name hhash h =>
    rw [← isSome_ofSuffix?_iff] at h
    simp [classify, hhash, h]
  | project => simp [classify]
  | tag => simp [classify]
  | estimate => simp [classify]
  | unclosed hhash h => simp [classify, hhash, closed?_eq_none_iff.mpr h]

/-- The words that can be no part of a line are those that the reader refuses on their own. -/
theorem classify_eq_error_iff {w : List Char} {cause : Cause} :
    classify w = .error cause ↔ IsFault w cause :=
  ⟨isFault_of_classify, IsFault.classify_eq⟩

/-! ## Words that do not fit behind others -/

/-- The word does not fit behind the notes of a line, and what is wrong with it. A lone hash is no
fault of a line, as a remark stands behind it. -/
inductive Offends (notes : List Mark) : List Char → Cause → Prop where
  | fault {w : List Char} {cause : Cause} (hne : w ≠ ['#']) (h : IsFault w cause) :
      Offends notes w cause
  | late {w : List Char} (hplain : IsPlainText w) (hnotes : notes ≠ []) :
      Offends notes w (.lateText (String.ofList w))

/-- Where the reader of annotations stops: behind notes, at a word that is no note and no lone
hash. -/
theorem annotationTokens_error {ws : List Word} {fault : Fault}
    (h : annotationTokens ws = .error fault) :
    ∃ (read later : List Word) (w : Word) (notes : List Mark), ws = read ++ w :: later ∧
      read.map Word.text = notes.map Mark.written ∧ (∀ m ∈ notes, IsNote m) ∧
      fault.column = some w.column ∧ w.text ≠ ['#'] ∧
      (IsFault w.text fault.cause ∨
        IsPlainText w.text ∧ fault.cause = .lateText (String.ofList w.text)) := by
  induction ws with
  | nil => simp [annotationTokens] at h
  | cons w ws ih =>
    unfold annotationTokens at h
    split at h
    · simp at h
    · next hhash =>
      split at h
      · next cause hclass =>
        obtain rfl := Except.error.inj h
        exact ⟨[], ws, w, [], rfl, rfl, by simp, rfl, hhash,
          .inl (classify_eq_error_iff.mp hclass)⟩
      · next hclass =>
        obtain rfl := Except.error.inj h
        exact ⟨[], ws, w, [], rfl, rfl, by simp, rfl, hhash,
          .inr ⟨classify_eq_none_iff.mp hclass, rfl⟩⟩
      · next kind text hclass =>
        -- the word is a note, so the reader stops at a later one
        rcases bind_eq_error.mp h with hlater | ⟨tokens, -, hok⟩
        · obtain ⟨read, later, bad, notes, rfl, htexts, hnotes, hcolumn, hne, hbad⟩ := ih hlater
          obtain ⟨hwritten, hmark⟩ := classify_eq_mark_iff.mp hclass
          refine ⟨w :: read, later, bad, (kind, text) :: notes, rfl, ?_, ?_, hcolumn, hne, hbad⟩
          · rw [List.map_cons, List.map_cons, htexts, hwritten]
          · exact List.forall_mem_cons.mpr ⟨isNote_iff.mpr hmark, hnotes⟩
        · simp at hok

/-- Where the reader of a line stops: in front of everything if there is no timestamp, and else
behind a timestamp, plain words and notes, at a word that does not fit. -/
theorem lineTokens_error {indent : Nat} {ws : List Word} {fault : Fault}
    (h : lineTokens indent ws = .error fault) :
    takeTimestamp ws = none ∧ fault = ⟨some (indent + 1), .missingTimestamp⟩ ∨
      ∃ (p : LineParts) (read later : List Word) (w : Word), p.WellFormed ∧ p.remark = none ∧
        ws = read ++ w :: later ∧ read.map Word.text = p.words ∧
        fault.column = some w.column ∧ Offends p.notes w.text fault.cause := by
  unfold lineTokens at h
  split at h
  · next htake => exact .inl ⟨htake, (Except.error.inj h).symm⟩
  · next t rest htake =>
    obtain ⟨stamp, rfl, hstamp, -⟩ := takeTimestamp_ok htake
    rcases bind_eq_error.mp h with hlater | ⟨tokens, -, hok⟩
    · obtain ⟨read, later, w, notes, hdrop, htexts, hnotes, hcolumn, hne, hbad⟩ :=
        annotationTokens_error hlater
      have hplain : ∀ w ∈ (rest.takeWhile isPlain).map Word.text, IsPlainText w := by
        intro text htext
        obtain ⟨w, hw, rfl⟩ := List.mem_map.mp htext
        have hclass := List.all_eq_true.mp List.all_takeWhile w hw
        exact classify_eq_none_iff.mp (isPlain_eq_true_iff.mp hclass)
      refine .inr ⟨⟨stamp.map Word.text, (rest.takeWhile isPlain).map Word.text, notes, none⟩,
        stamp ++ (rest.takeWhile isPlain ++ read), later, w, ⟨hstamp, hplain, hnotes⟩, rfl, ?_, ?_,
        hcolumn, ?_⟩
      · rw [List.append_assoc, List.append_assoc, ← hdrop, List.takeWhile_append_dropWhile]
      · simp [LineParts.words, htexts]
      · rcases hbad with hfault | ⟨htext, hcause⟩
        · exact .fault hne hfault
        · rw [hcause]
          refine .late htext ?_
          -- without a note the plain word would be one more word of the description
          rintro rfl
          obtain rfl : read = [] := by simpa using htexts
          have hhead := List.head?_dropWhile_not isPlain rest
          rw [hdrop] at hhead
          simp [isPlain_eq_true_iff.mpr (classify_eq_none_iff.mpr htext)] at hhead
    · simp at hok

end Daybook
