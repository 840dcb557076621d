import Daybook.Proofs.Line.Grammar

/-!
# The tokens of a line

A line that can be read is a timestamp and then tokens that a canonical line could have as well,
however the line was written: the words of a description are plain, an annotation can be
written again as a word, and a remark is trimmed.

* `Line.ofText_shape` : the tokens of any line that can be read.
-/

namespace Daybook

open Text

/-- What a token after the timestamp can say. -/
def Mark.Sound (m : Mark) : Prop :=
  match m.1 with
  | .description => ∃ ws, (∀ w ∈ ws, IsPlainWord w) ∧ m.2 = joinWith [' '] ws
  | .remark => trim m.2 = m.2 ∧ '\n' ∉ m.2
  | _ => m.Legible

theorem Mark.Legible.sound {m : Mark} (h : m.Legible) : m.Sound := by
  obtain ⟨kind, text⟩ := m
  cases kind with
  | description => exact h.1.2.elim
  | remark => exact h.1.2.elim
  | _ => exact h

/-- The text of a timestamp: a time, or a date and a time. -/
def IsStampText (cs : List Char) : Prop :=
  ∃ time, IsWord time ∧
    (cs = time ∨ ∃ date, isDateShape date = true ∧ IsWord date ∧ cs = date ++ ' ' :: time)

/-! ## The tokens that parts make -/

variable {stamp : List (List Char)} {p : LineParts}

/-- The words of a timestamp joined with a space are the text of one. -/
theorem IsStamp.isStampText (h : IsStamp stamp) (hwords : ∀ w ∈ stamp, IsWord w) :
    IsStampText (joinWith [' '] stamp) := by
  cases h with
  | @time t htime => exact ⟨t, hwords t (by simp), .inl rfl⟩
  | @dated d t hdate htime =>
    exact ⟨t, hwords t (by simp), .inr ⟨d, hdate, hwords d (by simp), by simp [joinWith]⟩⟩

/-- What follows the timestamp is what a canonical line could have. -/
theorem LineParts.WellFormed.sound (h : p.WellFormed) (hwords : ∀ w ∈ p.words, IsWord w)
    (hremark : ∀ r ∈ p.remark, trim r = r ∧ '\n' ∉ r) :
    ∀ m ∈ p.marks.tail, m.Sound := by
  intro m hm
  rw [LineParts.marks, List.cons_append, List.tail_cons] at hm
  rcases List.mem_append.mp hm with hm | hm
  · -- the words of the description are plain
    split at hm
    · simp at hm
    · obtain rfl := List.mem_singleton.mp hm
      refine ⟨p.plain, fun w hw => ⟨hwords w ?_, classify_eq_none_iff.mpr (h.plain w hw)⟩, rfl⟩
      exact List.mem_append_right _ (List.mem_append_left _ hw)
  · rcases List.mem_append.mp hm with hm | hm
    · have hword : IsWord m.written := by
        refine hwords _ (List.mem_append_right _ (List.mem_append_right _ ?_))
        exact List.mem_map_of_mem hm
      exact Mark.Legible.sound ⟨isNote_iff.mp (h.notes m hm), hword⟩
    · obtain ⟨r, hr, rfl⟩ := List.mem_map.mp hm
      exact hremark r (Option.mem_toList.mp hr)

/-- A remark is trimmed, and it is on the line that it ends. -/
theorem LineEnd.trimmed {remark : Option (List Char)} {tail : List Char}
    (h : LineEnd remark tail) (hfeed : '\n' ∉ tail) :
    ∀ r ∈ remark, trim r = r ∧ '\n' ∉ r := by
  intro r hr
  cases h with
  | bare => simp at hr
  | remark =>
    obtain rfl := Option.some.inj hr
    refine ⟨trim_trim _, fun hmem => hfeed ?_⟩
    have hrest := (trim_sublist _).subset hmem
    exact List.mem_append_right _ (List.mem_cons_of_mem _ hrest)

/-! ## Lines -/

/-- A line that can be read is a timestamp and tokens that a canonical line could have. -/
theorem Line.ofText_shape {line : List Char} (hfeed : '\n' ∉ line) {l : Line}
    (h : Line.ofText line = .ok (some l)) :
    ∃ stamp rest, l.tokens = stamp :: rest ∧ stamp.kind = .timestamp ∧
      IsStampText stamp.text.toList ∧ ∀ t ∈ rest, t.mark.Sound := by
  obtain ⟨p, ⟨hp, tail, hlaid, hend⟩, hmarks⟩ := Line.exists_make h
  have hwords := hlaid.isWord
  have hremark := hend.trimmed fun hmem => hfeed (hlaid.sublist.subset hmem)
  -- the first token is the timestamp, and the others are the other marks
  obtain ⟨stamp, rest, htokens, hstamp, hrest⟩ := List.map_eq_cons_iff.mp hmarks.symm
  obtain ⟨hkind, htext⟩ := Prod.mk.inj hstamp
  refine ⟨stamp, rest, htokens, hkind, ?_, ?_⟩
  · rw [htext]
    exact hp.stamp.isStampText fun w hw => hwords w (List.mem_append_left _ hw)
  · intro t ht
    refine hp.sound hwords hremark t.mark ?_
    rw [hmarks, htokens]
    exact List.mem_map_of_mem ht

end Daybook
