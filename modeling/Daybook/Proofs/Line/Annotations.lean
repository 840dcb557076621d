import Daybook.Proofs.Line.Grammar

/-!
# The annotations of a line

The tokens behind the timestamp of a line, told apart by their kinds. The reader makes at most one
description and at most one remark of a line; all that stands in between are notes.

* `Line.areAnnotations` : the tokens behind the timestamp of any line that can be read.
-/

namespace Daybook

open Text

/-! ## Tokens of a kind -/

/-- The texts of the tokens of a kind, in order. -/
def textsOf (kind : TokenKind) (tokens : List Token) : List String :=
  (tokens.filter fun t => t.kind = kind).map Token.text

variable {kind : TokenKind} {seen tokens rest : List Token} {t stamp : Token} {text : String}
  {line : List Char} {l : Line}

theorem textsOf_append (kind : TokenKind) (seen tokens : List Token) :
    textsOf kind (seen ++ tokens) = textsOf kind seen ++ textsOf kind tokens := by
  simp [textsOf]

theorem textsOf_cons_of_eq (tokens : List Token) (h : t.kind = kind) :
    textsOf kind (t :: tokens) = t.text :: textsOf kind tokens := by
  simp [textsOf, h]

theorem textsOf_cons_of_ne (tokens : List Token) (h : t.kind ≠ kind) :
    textsOf kind (t :: tokens) = textsOf kind tokens := by
  simp [textsOf, h]

theorem textsOf_eq_map (h : ∀ t ∈ tokens, t.kind = kind) :
    textsOf kind tokens = tokens.map Token.text := by
  rw [textsOf, List.filter_eq_self.mpr (by simpa using h)]

theorem mem_textsOf : text ∈ textsOf kind tokens ↔ ∃ t ∈ tokens, t.kind = kind ∧ t.text = text := by
  simp [textsOf, and_assoc]

theorem textsOf_eq_nil_iff : textsOf kind tokens = [] ↔ ∀ t ∈ tokens, t.kind ≠ kind := by
  simp [textsOf]

theorem length_textsOf_le (kind : TokenKind) (tokens : List Token) :
    (textsOf kind tokens).length ≤ tokens.length := by
  rw [textsOf, List.length_map]
  exact List.length_filter_le _ _

theorem textsOf_snoc_self (seen : List Token) (t : Token) :
    textsOf t.kind (seen ++ [t]) = textsOf t.kind seen ++ [t.text] := by
  simp [textsOf]

theorem textsOf_snoc_of_ne (seen : List Token) (h : t.kind ≠ kind) :
    textsOf kind (seen ++ [t]) = textsOf kind seen := by
  simp [textsOf, h]

/-! ## The tokens after a timestamp -/

/-- What the reader makes of the words after a timestamp: at most one description, which is not
empty, notes, and at most one remark. -/
structure AreAnnotations (tokens : List Token) : Prop where
  token : ∀ t ∈ tokens, t.kind = .description ∧ t.text ≠ "" ∨ IsNote t.mark ∨ t.kind = .remark
  description : (textsOf .description tokens).length ≤ 1
  remark : (textsOf .remark tokens).length ≤ 1

theorem joinWith_ne_nil {separator : List Char} {ws : List (List Char)} (hne : ws ≠ [])
    (hwords : ∀ w ∈ ws, w ≠ []) : joinWith separator ws ≠ [] := by
  cases ws with
  | nil => exact absurd rfl hne
  | cons w ws =>
    have hw := hwords w List.mem_cons_self
    cases ws with
    | nil => exact hw
    | cons v ws => simp [joinWith, hw]

theorem IsNote.kind_ne {m : Mark} (h : IsNote m) : m.1 ≠ .description ∧ m.1 ≠ .remark := by
  cases h <;> exact ⟨TokenKind.noConfusion, TokenKind.noConfusion⟩

theorem Line.exists_stamp (h : Line.ofText line = .ok (some l)) :
    ∃ stamp rest, l.tokens = stamp :: rest := by
  obtain ⟨p, -, hmarks⟩ := Line.exists_make h
  obtain ⟨stamp, rest, htokens, -, -⟩ := List.map_eq_cons_iff.mp hmarks.symm
  exact ⟨stamp, rest, htokens⟩

/-- The tokens of a line that can be read. -/
theorem Line.areAnnotations (h : Line.ofText line = .ok (some l))
    (htokens : l.tokens = stamp :: rest) : stamp.kind = .timestamp ∧ AreAnnotations rest := by
  obtain ⟨p, ⟨hp, tail, hlaid, -⟩, hmarks⟩ := Line.exists_make h
  rw [htokens, List.map_cons, LineParts.marks, List.cons_append] at hmarks
  obtain ⟨hkind, -⟩ := Prod.mk.inj (List.cons.inj hmarks).1.symm
  -- the tokens fall into those of the description, of the notes and of the remark
  obtain ⟨description, others, rfl, hdescription, hothers⟩ :=
    List.map_eq_append_iff.mp (List.cons.inj hmarks).2.symm
  obtain ⟨notes, remark, rfl, hnotes, hremark⟩ := List.map_eq_append_iff.mp hothers
  have hdescription' : ∀ t ∈ description, t.kind = .description ∧ t.text ≠ "" := by
    intro t ht
    have hmem := List.mem_map_of_mem (f := Token.mark) ht
    rw [hdescription] at hmem
    split at hmem
    · simp at hmem
    · next hplain =>
      obtain ⟨hkind, htext⟩ := Prod.mk.inj (List.mem_singleton.mp hmem)
      refine ⟨hkind, fun hempty => ?_⟩
      rw [hempty] at htext
      exact joinWith_ne_nil hplain (fun w hw => (hlaid.isWord w (by simp [LineParts.words, hw])).1)
        htext.symm
  have hnotes' : ∀ t ∈ notes, IsNote t.mark := by
    intro t ht
    exact hp.notes _ (hnotes ▸ List.mem_map_of_mem ht)
  have hremark' : ∀ t ∈ remark, t.kind = .remark := by
    intro t ht
    have hmem := List.mem_map_of_mem (f := Token.mark) ht
    rw [hremark] at hmem
    obtain ⟨r, -, hr⟩ := List.mem_map.mp hmem
    exact (Prod.mk.inj hr).1.symm
  have hfew : description.length ≤ 1 ∧ remark.length ≤ 1 := by
    rw [← List.length_map Token.mark, hdescription, ← List.length_map Token.mark, hremark]
    refine ⟨?_, ?_⟩
    · split <;> simp
    · cases p.remark <;> simp [LineParts.remarkMarks]
  refine ⟨hkind, ?_, ?_, ?_⟩
  · intro t ht
    rcases List.mem_append.mp ht with ht | ht
    · exact .inl (hdescription' t ht)
    · rcases List.mem_append.mp ht with ht | ht
      · exact .inr (.inl (hnotes' t ht))
      · exact .inr (.inr (hremark' t ht))
  · have hnone : textsOf .description (notes ++ remark) = [] := by
      refine textsOf_eq_nil_iff.mpr fun t ht => ?_
      rcases List.mem_append.mp ht with ht | ht
      · exact (hnotes' t ht).kind_ne.1
      · rw [hremark' t ht]
        exact TokenKind.noConfusion
    rw [textsOf_append, hnone, List.append_nil]
    exact (length_textsOf_le _ _).trans hfew.1
  · have hnone : textsOf .remark (description ++ notes) = [] := by
      refine textsOf_eq_nil_iff.mpr fun t ht => ?_
      rcases List.mem_append.mp ht with ht | ht
      · rw [(hdescription' t ht).1]
        exact TokenKind.noConfusion
      · exact (hnotes' t ht).kind_ne.2
    rw [← List.append_assoc, textsOf_append, hnone, List.nil_append]
    exact (length_textsOf_le _ _).trans hfew.2

namespace AreAnnotations

variable {text : String}

theorem isNote (h : AreAnnotations tokens) {kind : TokenKind}
    (hkind : kind ≠ .description ∧ kind ≠ .remark) (htext : text ∈ textsOf kind tokens) :
    IsNote (kind, text.toList) := by
  obtain ⟨t, ht, rfl, rfl⟩ := mem_textsOf.mp htext
  rcases h.token t ht with ⟨hdescription, -⟩ | hnote | hremark
  · exact absurd hdescription hkind.1
  · exact hnote
  · exact absurd hremark hkind.2

theorem timestamp (h : AreAnnotations tokens) : ∀ t ∈ tokens, t.kind ≠ .timestamp := by
  intro t ht hkind
  have hmem : t.text ∈ textsOf .timestamp tokens := mem_textsOf.mpr ⟨t, ht, hkind, rfl⟩
  cases h.isNote (by decide) hmem

theorem stop (h : AreAnnotations tokens) (htext : text ∈ textsOf .stop tokens) :
    IsStopName text.toList := by
  cases h.isNote (by decide) htext with
  | stop hname => exact hname

theorem suffix (h : AreAnnotations tokens) (htext : text ∈ textsOf .suffix tokens) :
    IsStateName text.toList := by
  cases h.isNote (by decide) htext with
  | suffix hname => exact hname

theorem resume (h : AreAnnotations tokens) (htext : text ∈ textsOf .resume tokens) :
    IsResumeName text.toList := by
  cases h.isNote (by decide) htext with
  | resume hname => exact hname

end AreAnnotations

end Daybook
