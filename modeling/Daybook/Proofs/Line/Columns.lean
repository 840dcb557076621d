import Daybook.Log
import Daybook.Proofs.Line.Offences
import Daybook.Proofs.Text.Places
import Mathlib.Data.List.Forall2

/-!
# The columns of a line

The column of a token is the place of a word in the line, and that word is how the token is
spelled there: its sign and its text, or the first word of a text of several words. The column of
a problem is the place of the first word that does not fit.

* `Headed` : tokens that stand at words, in the same order.
* `lineTokens_headed` : the tokens of a line stand at words of it.
* `Line.ofText_columns` : the columns of the tokens of a line, and of what is wrong with it.
-/

namespace Daybook

open Text

/-! ## Tokens at words -/

/-- The word that a mark begins with in a line: the first of several for a timestamp and a
description, the hash before a remark, and else the whole written form. -/
def Mark.BeginsWith (m : Mark) (w : List Char) : Prop :=
  match m.1 with
  | .timestamp | .description => ∃ rest, m.2 = w ++ rest ∧ StartsBlank rest
  | .remark => w = ['#']
  | _ => w = m.written

/-- An annotation begins with its written form, which is all of it. -/
theorem Mark.IsAnnotation.beginsWith {m : Mark} (h : m.IsAnnotation) {w : List Char} :
    m.BeginsWith w ↔ w = m.written := by
  obtain ⟨kind, text⟩ := m
  cases kind with
  | timestamp => exact h.2.elim
  | description => exact h.2.elim
  | remark => exact h.2.elim
  | _ => rfl

/-- The token stands at the word. -/
structure Token.IsAt (t : Token) (w : Word) : Prop where
  column : t.column = w.column
  mark : t.mark.BeginsWith w.text

/-- The tokens stand at words of a list, in the order of these. -/
abbrev Headed (tokens : List Token) (ws : List Word) : Prop :=
  List.SublistForall₂ Token.IsAt tokens ws

namespace Headed

variable {tokens others : List Token} {ws vs : List Word}

theorem append (h : Headed tokens ws) (hothers : Headed others vs) :
    Headed (tokens ++ others) (ws ++ vs) := by
  obtain ⟨heads, hheads, hsublist⟩ := List.sublistForall₂_iff.mp h
  obtain ⟨later, hlater, hsublist'⟩ := List.sublistForall₂_iff.mp hothers
  exact List.sublistForall₂_iff.mpr
    ⟨heads ++ later, List.rel_append hheads hlater, hsublist.append hsublist'⟩

theorem exists_word (h : Headed tokens ws) : ∀ t ∈ tokens, ∃ w ∈ ws, t.IsAt w := by
  induction h with
  | nil => simp
  | cons hat _ ih =>
    refine List.forall_mem_cons.mpr ⟨⟨_, List.mem_cons_self, hat⟩, fun t ht => ?_⟩
    obtain ⟨w, hw, htw⟩ := ih t ht
    exact ⟨w, List.mem_cons_of_mem _ hw, htw⟩
  | cons_right _ ih =>
    intro t ht
    obtain ⟨w, hw, htw⟩ := ih t ht
    exact ⟨w, List.mem_cons_of_mem _ hw, htw⟩

/-- The columns of tokens increase where those of the words do. -/
theorem pairwise_column (h : Headed tokens ws)
    (hws : ws.Pairwise fun a b => a.column < b.column) :
    tokens.Pairwise fun a b => a.column < b.column := by
  obtain ⟨heads, hheads, hsublist⟩ := List.sublistForall₂_iff.mp h
  have hcolumns : tokens.map Token.column = heads.map Word.column := by
    rw [← List.forall₂_eq_eq_eq, List.forall₂_map_left_iff, List.forall₂_map_right_iff]
    exact hheads.imp fun t w hat => hat.column
  have hpairwise := List.pairwise_map.mpr (hws.sublist hsublist)
  rw [← hcolumns] at hpairwise
  exact List.pairwise_map.mp hpairwise

end Headed

/-! ## The phases of a line -/

/-- Words joined with spaces begin with the first of them. -/
theorem exists_joinWith_cons (w : List Char) (ws : List (List Char)) :
    ∃ rest, joinWith [' '] (w :: ws) = w ++ rest ∧ StartsBlank rest := by
  cases ws with
  | nil => exact ⟨[], by simp [joinWith], by simp [StartsBlank]⟩
  | cons v ws =>
    refine ⟨' ' :: joinWith [' '] (v :: ws), by simp [joinWith], fun c hc => ?_⟩
    obtain rfl : ' ' = c := by simpa using hc
    decide

theorem takeTimestamp_column {w : Word} {ws rest : List Word} {t : Token}
    (h : takeTimestamp (w :: ws) = some (t, rest)) : t.column = w.column := by
  unfold takeTimestamp at h
  split at h
  · simp at h
  · next first others heq =>
    obtain ⟨rfl, rfl⟩ := List.cons.inj heq
    split at h
    · split at h
      · split at h
        · obtain ⟨rfl, -⟩ := Prod.mk.inj (Option.some.inj h)
          rfl
        · simp at h
      · simp at h
    · split at h
      · obtain ⟨rfl, -⟩ := Prod.mk.inj (Option.some.inj h)
        rfl
      · simp at h

/-- A timestamp stands at its first word. -/
theorem takeTimestamp_headed {ws rest : List Word} {t : Token}
    (h : takeTimestamp ws = some (t, rest)) : ∃ stamp, ws = stamp ++ rest ∧ Headed [t] stamp := by
  obtain ⟨stamp, rfl, hstamp, hmark⟩ := takeTimestamp_ok h
  obtain ⟨w, others, rfl⟩ : ∃ w others, stamp = w :: others :=
    List.exists_cons_of_ne_nil fun hnil => hstamp.ne_nil (by simp [hnil])
  refine ⟨w :: others, rfl, .cons ⟨takeTimestamp_column h, ?_⟩ .nil⟩
  rw [hmark]
  exact exists_joinWith_cons w.text (others.map Word.text)

theorem descriptionToken_headed (ws : List Word) : Headed (descriptionToken ws) ws := by
  cases ws with
  | nil => exact .nil
  | cons w ws =>
    refine .cons ⟨rfl, ?_⟩ .nil
    simpa [Token.mark, Mark.BeginsWith] using exists_joinWith_cons w.text (ws.map Word.text)

/-- Annotations and the remark stand each at a word of its own. -/
theorem annotationTokens_headed {ws : List Word} {tokens : List Token}
    (h : annotationTokens ws = .ok tokens) : Headed tokens ws := by
  induction ws generalizing tokens with
  | nil =>
    obtain rfl := Except.ok.inj h
    exact .nil
  | cons w ws ih =>
    unfold annotationTokens at h
    split at h
    · next hhash =>
      obtain rfl := Except.ok.inj h
      exact .cons ⟨rfl, hhash⟩ .nil
    · split at h
      · simp at h
      · simp at h
      · next kind text hclass =>
        obtain ⟨later, hlater, heq⟩ := bind_eq_ok.mp h
        obtain rfl := Except.ok.inj heq
        obtain ⟨hwritten, hmark⟩ := classify_eq_mark_iff.mp hclass
        refine .cons ⟨rfl, ?_⟩ (ih hlater)
        simpa [Token.mark] using hmark.beginsWith.mpr hwritten

/-- The tokens of a line stand at words of it. -/
theorem lineTokens_headed {indent : Nat} {ws : List Word} {tokens : List Token}
    (h : lineTokens indent ws = .ok tokens) : Headed tokens ws := by
  unfold lineTokens at h
  split at h
  · simp at h
  · next t rest htake =>
    obtain ⟨stamp, rfl, hstamp⟩ := takeTimestamp_headed htake
    obtain ⟨later, hlater, heq⟩ := bind_eq_ok.mp h
    obtain rfl := Except.ok.inj heq
    have hrest := (descriptionToken_headed (rest.takeWhile isPlain)).append
      (annotationTokens_headed hlater)
    rw [List.takeWhile_append_dropWhile] at hrest
    exact hstamp.append hrest

/-! ## Whole lines -/

variable {line : List Char} {read later : List Word} {w : Word}

/-- The words of the body of a line are words of the line. -/
theorem exists_words_of_body
    (h : words (indentOf line + 1) (bodyOf line) = read ++ w :: later) :
    ∃ first v last, words 1 line = first ++ v :: last ∧ first.map Word.text = read.map Word.text ∧
      v.text = w.text ∧ v.column = w.column := by
  rw [words_bodyOf] at h
  obtain ⟨first, others, hsplit, rfl, hothers⟩ := List.map_eq_append_iff.mp h
  obtain ⟨v, last, rfl, rfl, -⟩ := List.map_eq_cons_iff.mp hothers
  exact ⟨first, v, last, hsplit, by rw [List.map_map]; rfl, rfl, rfl⟩

/-- A word of the body of a line stands in the line at its column, behind the words before it. -/
theorem standsAt_of_body
    (h : words (indentOf line + 1) (bodyOf line) = read ++ w :: later) :
    StandsAt line w.column w.text ∧ WordsBefore line w.column (read.map Word.text) := by
  obtain ⟨first, v, last, hwords, hfirst, htext, hcolumn⟩ := exists_words_of_body h
  rw [← hfirst, ← htext, ← hcolumn]
  exact ⟨standsAt_of_words hwords, wordsBefore_of_words hwords⟩

/-- A line without a timestamp for its reader does not begin with the words of one. -/
theorem not_laid_of_takeTimestamp
    (h : takeTimestamp (words (indentOf line + 1) (bodyOf line)) = none)
    {stamp : List (List Char)} (hstamp : IsStamp stamp) (tail : List Char) :
    ¬ Laid stamp tail line := by
  intro hlaid
  obtain ⟨read, column, hwords, rfl⟩ := words_laid hlaid 1
  have htexts : (read.map Word.trimmed).map Word.text = read.map Word.text := by
    rw [List.map_map]
    rfl
  obtain ⟨t, htake, -⟩ := takeTimestamp_append (htexts ▸ hstamp)
    ((words column tail).map Word.trimmed)
  rw [words_bodyOf, hwords, List.map_append, htake] at h
  simp at h

/-- The tokens of a line stand at its words, behind the indentation and in order. -/
theorem headed_columns {tokens : List Token}
    (h : Headed tokens (words (indentOf line + 1) (bodyOf line))) :
    tokens.Pairwise (fun a b => a.column < b.column) ∧
      ∀ t ∈ tokens, indentOf line < t.column ∧ t.column ≤ line.length ∧
        ∃ w, StandsAt line t.column w ∧ t.mark.BeginsWith w := by
  obtain ⟨hpairwise, hle⟩ := pairwise_columns (indentOf line + 1) (bodyOf line)
  refine ⟨h.pairwise_column hpairwise, fun t ht => ?_⟩
  obtain ⟨w, hw, hcolumn, hmark⟩ := h.exists_word t ht
  obtain ⟨read, later, hwords⟩ := List.append_of_mem hw
  have hstands := (standsAt_of_body hwords).1
  rw [← hcolumn] at hstands
  exact ⟨hcolumn ▸ hle w hw, hstands.column_le, w.text, hstands, hmark⟩

theorem Line.ofText_eq_error {fault : Fault} (h : Line.ofText line = .error fault) :
    lineTokens (indentOf line) (words (indentOf line + 1) (bodyOf line)) = .error fault := by
  unfold Line.ofText at h
  split at h
  · simp at h
  · rcases bind_eq_error.mp h with htokens | ⟨tokens, -, hok⟩
    · exact htokens
    · simp at hok

/-- The tokens of a line are at increasing columns behind its indentation, and at the column of a
token stands the word that it begins with. A line that is no part of the log has one problem, with
the number of the line. Its column is the first one behind the indentation if the line does not
begin with a timestamp; else a word stands there that does not fit, and what stands before that
word is a line of the grammar. -/
theorem Line.ofText_columns (line : List Char) :
    (∀ l, Line.ofText line = .ok (some l) →
      l.indent = (line.takeWhile isIndent).length ∧
      l.tokens.Pairwise (fun a b => a.column < b.column) ∧
      ∀ t ∈ l.tokens, l.indent < t.column ∧ t.column ≤ line.length ∧
        ∃ w, StandsAt line t.column w ∧ t.mark.BeginsWith w) ∧
    ∀ fault, Line.ofText line = .error fault →
      (∀ clock number, ∃ problem, (Log.readLine clock number line).2.problems = [problem] ∧
        problem.line = number ∧ problem.column = fault.column ∧ problem.cause = fault.cause) ∧
      (fault = ⟨some ((line.takeWhile isIndent).length + 1), .missingTimestamp⟩ ∧
          (∀ stamp tail, IsStamp stamp → ¬ Laid stamp tail line) ∨
        ∃ (column : Nat) (w : List Char) (p : LineParts), fault.column = some column ∧
          StandsAt line column w ∧ p.Make (line.take (column - 1)) ∧ p.remark = none ∧
          Offends p.notes w fault.cause) := by
  refine ⟨fun l hl => ?_, fun fault hfault => ⟨fun clock number => ?_, ?_⟩⟩
  · have hloud : isSilent line = false := by
      refine Bool.eq_false_iff.mpr fun hsilent => ?_
      rw [Line.ofText_eq_none_iff.mpr hsilent] at hl
      simp at hl
    obtain ⟨hindent, htokens⟩ := (Line.ofText_of_not_isSilent hloud).mp hl
    rw [hindent]
    exact ⟨rfl, headed_columns (lineTokens_headed htokens)⟩
  · exact ⟨fault.atLine number, by simp [Log.readLine, hfault], rfl, rfl, rfl⟩
  · rcases lineTokens_error (Line.ofText_eq_error hfault) with
      ⟨htake, rfl⟩ | ⟨p, read, later, w, hp, hremark, hwords, htexts, hcolumn, hoffends⟩
    · exact .inl ⟨rfl, fun stamp tail hstamp => not_laid_of_takeTimestamp htake hstamp tail⟩
    · obtain ⟨hstands, gap, hlaid, hgap⟩ := standsAt_of_body hwords
      rw [htexts] at hlaid
      -- nothing but white space is left behind the words before the one that does not fit
      have hend : LineEnd p.remark gap := hremark ▸ .bare hgap
      exact .inr ⟨w.column, w.text, p, hcolumn, hstands, ⟨hp, gap, hlaid, hend⟩, hremark, hoffends⟩

/-- A wide space behind the indentation counts as one column, as any other character does. -/
example : Line.ofText "\t\u30009:00 né +a b".toList = .error ⟨some 14, .lateText "b"⟩ := by decide

end Daybook
