import Daybook.Proofs.Line.Notes
import Daybook.Proofs.Result
import Daybook.Proofs.Text.Layout

/-!
# The grammar of a line

A line that says something is a timestamp, plain words, notes and possibly a remark behind a lone
hash, set apart by white space of any kind. The grammar says this of the text of the line, without
reading it; the reader accepts exactly the lines of the grammar, and its tokens are their parts.

* `lineTokens_iff` : the words that the phases of the reader accept.
* `Line.ofText_iff` : the lines that are silent, and the lines that can be read.
-/

namespace Daybook

open Text

/-! ## The parts of a line -/

/-- The words of a timestamp: a time, or a date and a time. -/
inductive IsStamp : List (List Char) → Prop where
  | time {t : List Char} (h : isTimeShape t = true) : IsStamp [t]
  | dated {d t : List Char} (hdate : isDateShape d = true) (htime : isTimeShape t = true) :
      IsStamp [d, t]

/-- What a line is put together from. -/
structure LineParts where
  /-- The words of the timestamp. -/
  stamp : List (List Char)
  /-- The words of the description. -/
  plain : List (List Char)
  notes : List Mark
  remark : Option (List Char)

/-- How a line ends: with nothing but white space, or with a hash that stands alone and a
remark. -/
inductive LineEnd : Option (List Char) → List Char → Prop where
  | bare {tail : List Char} (h : IsGap tail) : LineEnd none tail
  | remark {gap rest : List Char} (hgap : IsGap gap) (hrest : StartsBlank rest) :
      LineEnd (some (trim rest)) (gap ++ ('#' :: rest))

namespace LineParts

/-- The words before the remark. -/
def words (p : LineParts) : List (List Char) :=
  p.stamp ++ (p.plain ++ p.notes.map Mark.written)

/-- What the remark says, if there is one. -/
def remarkMarks (remark : Option (List Char)) : List Mark :=
  remark.toList.map fun r => (.remark, r)

/-- What the tokens of the line say. -/
def marks (p : LineParts) : List Mark :=
  (.timestamp, joinWith [' '] p.stamp) ::
    (if p.plain = [] then [] else [(.description, joinWith [' '] p.plain)]) ++
    (p.notes ++ remarkMarks p.remark)

/-- Every part is what it has to be. -/
structure WellFormed (p : LineParts) : Prop where
  stamp : IsStamp p.stamp
  plain : ∀ w ∈ p.plain, IsPlainText w
  notes : ∀ m ∈ p.notes, IsNote m

/-- The parts make up the line. -/
def Make (p : LineParts) (line : List Char) : Prop :=
  p.WellFormed ∧ ∃ tail, Laid p.words tail line ∧ LineEnd p.remark tail

end LineParts

open LineParts (remarkMarks)

/-! ## The end of a line -/

/-- How the words of a line end: there are no more, or the next one is a lone hash. -/
inductive EndsIn : Option (List Char) → List Word → Prop where
  | bare : EndsIn none []
  | remark {w : Word} {others : List Word} (h : w.text = ['#']) :
      EndsIn (some (trim w.rest)) (w :: others)

theorem isWord_hash : IsWord ['#'] :=
  isWord_of_all (List.cons_ne_nil _ _) (by decide)

/-- What is left of a line is its end exactly when the words in it are. -/
theorem lineEnd_iff {remark : Option (List Char)} {tail : List Char} (column : Nat) :
    LineEnd remark tail ↔ EndsIn remark (Text.words column tail) := by
  constructor
  · intro h
    cases h with
    | bare hgap =>
      rw [words_of_isGap hgap]
      exact .bare
    | remark hgap hrest =>
      have hfirst := words_first hgap isWord_hash hrest column
      rw [List.singleton_append] at hfirst
      rw [hfirst]
      exact EndsIn.remark (w := ⟨['#'], _, _⟩) rfl
  · intro h
    by_cases hnone : IsGap tail
    · rw [words_of_isGap hnone] at h
      cases h
      exact .bare hnone
    · obtain ⟨gap, w, rest, rfl, hgap, hw, hrest⟩ := exists_word hnone
      rw [words_first hgap hw hrest] at h
      cases h with
      | remark htext =>
        obtain rfl : w = ['#'] := htext
        exact LineEnd.remark hgap hrest

/-- White space at the end of a line is no part of the remark. -/
theorem endsIn_map_trimmed_iff {remark : Option (List Char)} {ws : List Word} :
    EndsIn remark (ws.map Word.trimmed) ↔ EndsIn remark ws := by
  cases ws with
  | nil => rfl
  | cons w ws =>
    have hrest : trim w.trimmed.rest = trim w.rest := by
      rw [Word.trimmed, trim, trimRight_trimRight, trim]
    constructor
    · intro h
      cases h with
      | remark htext => exact hrest ▸ .remark htext
    · intro h
      cases h with
      | remark htext => exact hrest ▸ .remark (w := w.trimmed) htext

/-! ## Timestamps -/

/-- A time is too short to be a date. -/
theorem isDateShape_eq_false_of_isTimeShape {cs : List Char} (h : isTimeShape cs = true) :
    isDateShape cs = false := by
  refine Bool.eq_false_iff.mpr fun hdate => ?_
  have hlong : cs.length = 10 := by
    unfold isDateShape at hdate
    split at hdate
    · rfl
    · simp at hdate
  unfold isTimeShape at h
  split at h
  · simp at hlong
  · simp at hlong
  · simp at hlong
  · simp at hlong
  · simp at h

theorem takeTimestamp_ok {ws rest : List Word} {t : Token}
    (h : takeTimestamp ws = some (t, rest)) :
    ∃ stamp, ws = stamp ++ rest ∧ IsStamp (stamp.map Word.text) ∧
      t.mark = (.timestamp, joinWith [' '] (stamp.map Word.text)) := by
  unfold takeTimestamp at h
  split at h
  · simp at h
  · next first others =>
    split at h
    · next hdate =>
      split at h
      · next second others =>
        split at h
        · next htime =>
          obtain ⟨rfl, rfl⟩ := Prod.mk.inj (Option.some.inj h)
          exact ⟨[first, second], rfl, .dated hdate htime, by simp [Token.mark, joinWith]⟩
        · simp at h
      · simp at h
    · split at h
      · next htime =>
        obtain ⟨rfl, rfl⟩ := Prod.mk.inj (Option.some.inj h)
        exact ⟨[first], rfl, .time htime, by simp [Token.mark, joinWith]⟩
      · simp at h

theorem takeTimestamp_append {stamp : List Word} (h : IsStamp (stamp.map Word.text))
    (rest : List Word) :
    ∃ t, takeTimestamp (stamp ++ rest) = some (t, rest) ∧
      t.mark = (.timestamp, joinWith [' '] (stamp.map Word.text)) := by
  generalize htexts : stamp.map Word.text = texts at h
  cases h with
  | time htime =>
    obtain ⟨w, rfl, rfl⟩ := List.map_eq_singleton_iff.mp htexts
    refine ⟨⟨.timestamp, String.ofList w.text, w.column⟩, ?_, by simp [Token.mark, joinWith]⟩
    simp [takeTimestamp, isDateShape_eq_false_of_isTimeShape htime, htime]
  | dated hdate htime =>
    obtain ⟨first, others, rfl, rfl, hothers⟩ := List.map_eq_cons_iff.mp htexts
    obtain ⟨second, rfl, rfl⟩ := List.map_eq_singleton_iff.mp hothers
    refine ⟨⟨.timestamp, String.ofList (first.text ++ ' ' :: second.text), first.column⟩, ?_,
      by simp [Token.mark, joinWith]⟩
    simp [takeTimestamp, hdate, htime]

theorem IsStamp.ne_nil {stamp : List (List Char)} (h : IsStamp stamp) : stamp ≠ [] := by
  cases h with
  | time => exact List.cons_ne_nil _ _
  | dated => exact List.cons_ne_nil _ _

/-- A timestamp starts with a digit. -/
theorem IsStamp.head {first : List Char} {others : List (List Char)}
    (h : IsStamp (first :: others)) : ∃ c rest, first = c :: rest ∧ isDecimal c = true := by
  have hshape : isDateShape first = true ∨ isTimeShape first = true := by
    cases h with
    | time htime => exact .inr htime
    | dated hdate _ => exact .inl hdate
  rcases hshape with hshape | hshape
  · unfold isDateShape at hshape
    split at hshape
    · exact ⟨_, _, rfl, by simp_all⟩
    · simp at hshape
  · unfold isTimeShape at hshape
    split at hshape
    all_goals first | exact ⟨_, _, rfl, by simp_all⟩ | simp at hshape

/-! ## Notes and the remark -/

/-- What is read behind the description is notes, and then the end of the line. -/
theorem annotationTokens_ok {ws : List Word} {tokens : List Token}
    (h : annotationTokens ws = .ok tokens) :
    ∃ read others notes remark, ws = read ++ others ∧ read.map Word.text = notes.map Mark.written ∧
      (∀ m ∈ notes, IsNote m) ∧ EndsIn remark others ∧
      tokens.map Token.mark = notes ++ remarkMarks remark := by
  induction ws generalizing tokens with
  | nil =>
    obtain rfl := Except.ok.inj h
    exact ⟨[], [], [], none, rfl, rfl, by simp, .bare, rfl⟩
  | cons w ws ih =>
    unfold annotationTokens at h
    split at h
    · -- a lone hash
      next hhash =>
      obtain rfl := Except.ok.inj h
      exact ⟨[], w :: ws, [], some (trim w.rest), rfl, rfl, by simp, .remark hhash,
        by simp [Token.mark, remarkMarks]⟩
    · split at h
      · simp at h
      · simp at h
      · next kind text hclass =>
        obtain ⟨later, hlater, heq⟩ := bind_eq_ok.mp h
        obtain rfl := Except.ok.inj heq
        obtain ⟨read, others, notes, remark, rfl, htexts, hnotes, hend, hmarks⟩ := ih hlater
        obtain ⟨hwritten, hmark⟩ := classify_eq_mark_iff.mp hclass
        refine ⟨w :: read, others, (kind, text) :: notes, remark, rfl, ?_, ?_, hend, ?_⟩
        · rw [List.map_cons, List.map_cons, htexts, hwritten]
        · exact List.forall_mem_cons.mpr ⟨isNote_iff.mpr hmark, hnotes⟩
        · rw [List.map_cons, hmarks]
          simp [Token.mark]

/-- Annotations are read in order, before what follows them. -/
theorem annotationTokens_append {read rest : List Word} {marks : List Mark}
    (hread : read.map Word.text = marks.map Mark.written)
    (hmarks : ∀ m ∈ marks, m.IsAnnotation) {tokens : List Token}
    (hrest : annotationTokens rest = .ok tokens) :
    ∃ first, annotationTokens (read ++ rest) = .ok (first ++ tokens) ∧
      first.map Token.mark = marks := by
  induction marks generalizing read with
  | nil =>
    obtain rfl : read = [] := by simpa using hread
    exact ⟨[], hrest, rfl⟩
  | cons m marks ih =>
    -- the first word is the first mark, and it is no lone hash
    obtain ⟨w, read, rfl, hw, hread⟩ := List.map_eq_cons_iff.mp hread
    obtain ⟨first, hfirst, hmark⟩ := ih hread fun n hn => hmarks n (List.mem_cons_of_mem _ hn)
    have hm := hmarks m List.mem_cons_self
    refine ⟨⟨m.1, String.ofList m.2, w.column⟩ :: first, ?_, by simp [Token.mark, hmark]⟩
    rw [List.cons_append, annotationTokens, hw, if_neg hm.ne_hash,
      classify_eq_mark_iff.mpr ⟨rfl, hm⟩, hfirst]
    rfl

theorem annotationTokens_of_endsIn {remark : Option (List Char)} {others : List Word}
    (h : EndsIn remark others) :
    ∃ tokens, annotationTokens others = .ok tokens ∧
      tokens.map Token.mark = remarkMarks remark := by
  cases h with
  | bare => exact ⟨[], rfl, rfl⟩
  | @remark w _ htext =>
    have hmark : (Token.mk .remark (String.ofList (trim w.rest)) w.column).mark =
        (.remark, trim w.rest) := by
      rw [Token.mark, String.toList_ofList]
    exact ⟨[_], by rw [annotationTokens, if_pos htext], by rw [List.map_singleton, hmark]; rfl⟩

/-! ## Plain words -/

/-- Behind the description stands a note, a lone hash, or nothing. -/
theorem not_isPlain_head {notes : List Mark} (hnotes : ∀ m ∈ notes, IsNote m)
    {read others : List Word} (hread : read.map Word.text = notes.map Mark.written)
    {remark : Option (List Char)} (hend : EndsIn remark others) :
    ∀ w ∈ (read ++ others).head?, isPlain w = false := by
  intro w hw
  cases read with
  | nil =>
    rw [List.nil_append] at hw
    cases hend with
    | bare => simp at hw
    | remark htext =>
      obtain rfl := Option.some.inj hw
      simp [isPlain, classify, htext]
  | cons v read =>
    obtain rfl : v = w := by simpa using hw
    obtain ⟨m, rest, rfl, hv, -⟩ := List.map_eq_cons_iff.mp hread.symm
    exact (isNote_iff.mp (hnotes m List.mem_cons_self)).not_plain hv.symm

theorem descriptionToken_mark {read : List Word} {plain : List (List Char)}
    (h : read.map Word.text = plain) :
    (descriptionToken read).map Token.mark =
      if plain = [] then [] else [(.description, joinWith [' '] plain)] := by
  subst h
  cases read with
  | nil => rfl
  | cons w ws => simp [descriptionToken, Token.mark]

/-- The description is the longest run of plain words. -/
theorem span_isPlain {plain rest : List Word} (hplain : ∀ w ∈ plain, isPlain w = true)
    (hrest : ∀ w ∈ rest.head?, isPlain w = false) :
    (plain ++ rest).takeWhile isPlain = plain ∧ (plain ++ rest).dropWhile isPlain = rest := by
  rw [List.takeWhile_append_of_pos hplain, List.dropWhile_append_of_pos hplain]
  cases rest with
  | nil => simp
  | cons w rest => simp [hrest w rfl]

/-! ## The phases together -/

/-- The words of a line make tokens exactly when they are those of well-formed parts, and then the
tokens are the parts. -/
theorem lineTokens_iff {indent : Nat} {ws : List Word} {marks : List Mark} :
    (∃ tokens, lineTokens indent ws = .ok tokens ∧ tokens.map Token.mark = marks) ↔
      ∃ p : LineParts, p.WellFormed ∧ p.marks = marks ∧
        ∃ read others, ws = read ++ others ∧ read.map Word.text = p.words ∧
          EndsIn p.remark others := by
  constructor
  · rintro ⟨tokens, h, rfl⟩
    unfold lineTokens at h
    split at h
    · simp at h
    · next t rest htake =>
      obtain ⟨stamp, rfl, hstamp, ht⟩ := takeTimestamp_ok htake
      obtain ⟨later, hlater, heq⟩ := bind_eq_ok.mp h
      obtain rfl := Except.ok.inj heq
      obtain ⟨read, others, notes, remark, hdrop, htexts, hnotes, hend, hmarks⟩ :=
        annotationTokens_ok hlater
      have hplain : ∀ w ∈ (rest.takeWhile isPlain).map Word.text, IsPlainText w := by
        intro text htext
        obtain ⟨w, hw, rfl⟩ := List.mem_map.mp htext
        have hclass := List.all_eq_true.mp List.all_takeWhile w hw
        exact classify_eq_none_iff.mp (isPlain_eq_true_iff.mp hclass)
      refine ⟨⟨stamp.map Word.text, (rest.takeWhile isPlain).map Word.text, notes, remark⟩,
        ⟨hstamp, hplain, hnotes⟩, ?_, stamp ++ (rest.takeWhile isPlain ++ read), others, ?_, ?_,
        hend⟩
      · simp [LineParts.marks, ht, hmarks, descriptionToken_mark rfl]
      · rw [List.append_assoc, List.append_assoc, ← hdrop, List.takeWhile_append_dropWhile]
      · simp [LineParts.words, htexts]
  · rintro ⟨p, hp, rfl, read, others, rfl, hread, hend⟩
    -- the words fall into those of the timestamp, of the description and of the notes
    obtain ⟨stamp, later, rfl, hstamp, hlater⟩ := List.map_eq_append_iff.mp hread
    obtain ⟨plain, notes, rfl, hplain, hnotes⟩ := List.map_eq_append_iff.mp hlater
    obtain ⟨t, htake, ht⟩ := takeTimestamp_append (hstamp ▸ hp.stamp) (plain ++ notes ++ others)
    obtain ⟨last, hlast, hlastMarks⟩ := annotationTokens_of_endsIn hend
    obtain ⟨tokens, htokens, hmarks⟩ :=
      annotationTokens_append hnotes (fun m hm => isNote_iff.mp (hp.notes m hm)) hlast
    have hall : ∀ w ∈ plain, isPlain w = true := by
      intro w hw
      have hmem : w.text ∈ p.plain := hplain ▸ List.mem_map_of_mem hw
      exact isPlain_eq_true_iff.mpr (classify_eq_none_iff.mpr (hp.plain _ hmem))
    obtain ⟨htakeWhile, hdropWhile⟩ := span_isPlain hall (not_isPlain_head hp.notes hnotes hend)
    refine ⟨t :: descriptionToken plain ++ (tokens ++ last), ?_, ?_⟩
    · rw [lineTokens, List.append_assoc, htake]
      simp only [List.append_assoc, htakeWhile, hdropWhile, htokens]
      rfl
    · simp [LineParts.marks, ht, hmarks, hlastMarks, hstamp, descriptionToken_mark hplain]

/-! ## Whole lines -/

/-- Neither the indentation nor the white space at the end changes what the words of a line are. -/
theorem words_bodyOf (line : List Char) :
    Text.words (indentOf line + 1) (bodyOf line) = (Text.words 1 line).map Word.trimmed := by
  have hgap : IsGap (line.takeWhile isIndent) := by
    intro c hc
    have hindent := List.all_eq_true.mp List.all_takeWhile c hc
    simp only [isIndent, Bool.or_eq_true, beq_iff_eq] at hindent
    rcases hindent with rfl | rfl <;> decide
  have hline := words_gap hgap 1 (line.dropWhile isIndent)
  rw [List.takeWhile_append_dropWhile] at hline
  rw [bodyOf, words_trimRight, hline, indentOf, Nat.add_comm]

theorem isSilent_eq_true_iff {line : List Char} :
    isSilent line = true ↔ bodyOf line = [] ∨ (bodyOf line).head? = some '#' := by
  unfold isSilent
  split
  · next h => simp [h]
  · next h => simp [h]

/-- The parts make up the line exactly when its words are those of the parts. -/
theorem LineParts.make_iff {p : LineParts} {line : List Char} :
    p.Make line ↔ p.WellFormed ∧ ∃ read others,
      Text.words (indentOf line + 1) (bodyOf line) = read ++ others ∧
        read.map Word.text = p.words ∧ EndsIn p.remark others := by
  rw [words_bodyOf]
  refine and_congr_right fun _ => ?_
  constructor
  · rintro ⟨tail, hlaid, hend⟩
    obtain ⟨read, column, hread, htexts⟩ := words_laid hlaid 1
    refine ⟨read.map Word.trimmed, (Text.words column tail).map Word.trimmed, ?_, ?_, ?_⟩
    · rw [hread, List.map_append]
    · rw [List.map_map, ← htexts]
      rfl
    · exact endsIn_map_trimmed_iff.mpr ((lineEnd_iff column).mp hend)
  · rintro ⟨read, others, hwords, htexts, hend⟩
    obtain ⟨first, second, hsplit, rfl, rfl⟩ := List.map_eq_append_iff.mp hwords
    obtain ⟨tail, column, hlaid, rfl⟩ := laid_of_words hsplit
    refine ⟨tail, ?_, (lineEnd_iff column).mpr (endsIn_map_trimmed_iff.mp hend)⟩
    rw [← htexts, List.map_map]
    exact hlaid

/-- A line with a timestamp is not silent. -/
theorem LineParts.Make.not_isSilent {p : LineParts} {line : List Char} (h : p.Make line) :
    isSilent line = false := by
  obtain ⟨hp, read, others, hwords, htexts, -⟩ := make_iff.mp h
  obtain ⟨first, stamp, hfirst⟩ : ∃ first stamp, p.stamp = first :: stamp :=
    List.exists_cons_of_ne_nil hp.stamp.ne_nil
  obtain ⟨c, rest, rfl, hc⟩ := IsStamp.head (hfirst ▸ hp.stamp)
  rw [LineParts.words, hfirst, List.cons_append] at htexts
  obtain ⟨w, read, rfl, hw, -⟩ := List.map_eq_cons_iff.mp htexts
  refine Bool.eq_false_iff.mpr fun hsilent => ?_
  rcases isSilent_eq_true_iff.mp hsilent with hnil | hhash
  · rw [hnil] at hwords
    simp [Text.words, wordsFrom] at hwords
  · -- the first word of a comment starts with a hash
    obtain ⟨body, hbody⟩ := List.head?_eq_some_iff.mp hhash
    have hblank : isBlank '#' = false := by decide
    rw [hbody, Text.words, wordsFrom, if_neg (by simp [hblank]), if_neg (by simp)] at hwords
    obtain ⟨rfl, -⟩ := List.cons.inj hwords
    obtain ⟨rfl, -⟩ := List.cons.inj hw
    exact absurd hc (by decide)

theorem Line.ofText_of_not_isSilent {line : List Char} (h : isSilent line = false) {l : Line} :
    Line.ofText line = .ok (some l) ↔
      l.indent = indentOf line ∧
        lineTokens (indentOf line) (Text.words (indentOf line + 1) (bodyOf line)) =
          .ok l.tokens := by
  rw [Line.ofText, if_neg (by simp [h])]
  constructor
  · intro hok
    obtain ⟨tokens, htokens, heq⟩ := bind_eq_ok.mp hok
    obtain rfl := Option.some.inj (Except.ok.inj heq)
    exact ⟨rfl, htokens⟩
  · rintro ⟨hindent, htokens⟩
    refine bind_eq_ok.mpr ⟨l.tokens, htokens, ?_⟩
    rw [← hindent]

theorem Line.ofText_eq_none_iff {line : List Char} :
    Line.ofText line = .ok none ↔ isSilent line = true := by
  unfold Line.ofText
  split
  · next h => simp [h]
  · next h =>
    refine iff_of_false ?_ h
    intro hok
    obtain ⟨tokens, -, heq⟩ := bind_eq_ok.mp hok
    simp at heq

/-- A line that is made of parts can be read, and its tokens are the parts. -/
theorem Line.ofText_of_make {p : LineParts} {line : List Char} (h : p.Make line) :
    ∃ tokens, Line.ofText line = .ok (some ⟨indentOf line, tokens⟩) ∧
      tokens.map Token.mark = p.marks := by
  obtain ⟨hp, hwords⟩ := LineParts.make_iff.mp h
  obtain ⟨tokens, htokens, hmarks⟩ := lineTokens_iff.mpr ⟨p, hp, rfl, hwords⟩
  exact ⟨tokens, (Line.ofText_of_not_isSilent h.not_isSilent).mpr ⟨rfl, htokens⟩, hmarks⟩

/-- A line that can be read is made of parts, and they are what its tokens say. -/
theorem Line.exists_make {line : List Char} {l : Line} (h : Line.ofText line = .ok (some l)) :
    ∃ p : LineParts, p.Make line ∧ p.marks = l.tokens.map Token.mark := by
  have hloud : isSilent line = false := by
    refine Bool.eq_false_iff.mpr fun hsilent => ?_
    rw [Line.ofText_eq_none_iff.mpr hsilent] at h
    simp at h
  obtain ⟨-, htokens⟩ := (Line.ofText_of_not_isSilent hloud).mp h
  obtain ⟨p, hp, hmarks, hwords⟩ := lineTokens_iff.mp ⟨l.tokens, htokens, rfl⟩
  exact ⟨p, LineParts.make_iff.mpr ⟨hp, hwords⟩, hmarks⟩

/-- A line is silent exactly when it is blank or a comment behind its spaces and tabs. Any other
line can be read exactly when it is of the grammar, and its tokens say what its parts are. -/
theorem Line.ofText_iff (line : List Char) (marks : List Mark) :
    (Line.ofText line = .ok none ↔
      trimRight (line.dropWhile isIndent) = [] ∨
        (trimRight (line.dropWhile isIndent)).head? = some '#') ∧
    ((∃ l, Line.ofText line = .ok (some l) ∧ l.indent = (line.takeWhile isIndent).length ∧
        l.tokens.map Token.mark = marks) ↔
      ∃ p : LineParts, p.Make line ∧ p.marks = marks) := by
  refine ⟨Line.ofText_eq_none_iff.trans isSilent_eq_true_iff, ?_⟩
  constructor
  · rintro ⟨l, hl, -, rfl⟩
    exact Line.exists_make hl
  · rintro ⟨p, hmake, rfl⟩
    obtain ⟨tokens, hline, hmarks⟩ := Line.ofText_of_make hmake
    exact ⟨_, hline, rfl, hmarks⟩

end Daybook
