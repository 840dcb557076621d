import Daybook.Proofs.Line.Mark

/-!
# The signs of a word

What a single word of a line stands for, told from its sign and from the reserved words alone. A
word is a note, which begins with a sign and goes on as that sign asks for, or it is plain, with
no sign in front; a hash makes it neither.

* `isNote_iff` : the notes are the annotations that a line can have.
* `classify_eq_none_iff` : which words are plain.
-/

namespace Daybook

open Text

/-! ## Reserved words -/

/-- A word for stopping. -/
def IsStopName (name : List Char) : Prop :=
  name = "end".toList ∨ name = "pause".toList ∨ name = "abandon".toList

/-- A word for going on, or the number of an entry in digits. -/
def IsResumeName (name : List Char) : Prop :=
  name = "resume".toList ∨ name = "prev".toList ∨ name ≠ [] ∧ ∀ c ∈ name, isDigit c = true

/-- A word for a state that a line can assign. -/
def IsStateName (name : List Char) : Prop :=
  name = "paused".toList ∨ name = "completed".toList ∨ name = "abandoned".toList

private theorem isSome_ite_iff {α : Type} {p q r : Prop} [Decidable p] [Decidable q] [Decidable r]
    (a b c : α) :
    (if p then some a else if q then some b else if r then some c else none).isSome = true ↔
      p ∨ q ∨ r := by
  by_cases hp : p <;> by_cases hq : q <;> by_cases hr : r <;> simp [hp, hq, hr]

theorem isSome_ofWord?_iff (name : List Char) :
    (Stop.ofWord? (String.ofList name)).isSome = true ↔ IsStopName name := by
  rw [Stop.ofWord?, isSome_ite_iff]
  simp only [← String.toList_inj, String.toList_ofList]
  rfl

theorem isSome_ofSuffix?_iff (name : List Char) :
    (State.ofSuffix? (String.ofList name)).isSome = true ↔ IsStateName name := by
  rw [State.ofSuffix?, isSome_ite_iff]
  simp only [← String.toList_inj, String.toList_ofList]
  rfl

/-- A name after `@` is a stop before all else. -/
theorem nameKind_eq_stop_iff (name : List Char) : nameKind name = .stop ↔ IsStopName name := by
  rw [nameKind, ← isSome_ofWord?_iff]
  split
  · next h => simp [h]
  · next h =>
    split
    · simp [h]
    · simp [h]

theorem nameKind_eq_resume_iff {name : List Char} (hne : name ≠ []) :
    nameKind name = .resume ↔ ¬ IsStopName name ∧ IsResumeName name := by
  have hdigits : name.all isDigit = true ↔ name ≠ [] ∧ ∀ c ∈ name, isDigit c = true := by
    rw [List.all_eq_true, and_iff_right hne]
  rw [nameKind, ← isSome_ofWord?_iff]
  split
  · next h => simp [h]
  · next h =>
    rw [IsResumeName, ← hdigits]
    split
    · next hresume => exact iff_of_true rfl ⟨h, hresume⟩
    · next hresume => exact iff_of_false TokenKind.noConfusion fun hboth => hresume hboth.2

/-- No word for stopping is one for going on. -/
theorem IsStopName.not_isResumeName {name : List Char} (h : IsStopName name) :
    ¬ IsResumeName name := by
  -- every word for stopping has a letter in it
  have hletter : ∃ c ∈ name, isDigit c = false := by
    rcases h with rfl | rfl | rfl
    · exact ⟨'e', by decide, by decide⟩
    · exact ⟨'p', by decide, by decide⟩
    · exact ⟨'a', by decide, by decide⟩
  rintro (hname | hname | ⟨-, hdigits⟩)
  · rw [IsStopName, hname] at h
    exact absurd h (by decide)
  · rw [IsStopName, hname] at h
    exact absurd h (by decide)
  · obtain ⟨c, hc, hletter⟩ := hletter
    rw [hdigits c hc] at hletter
    exact Bool.noConfusion hletter

theorem IsStopName.ne_nil {name : List Char} (h : IsStopName name) : name ≠ [] := by
  rcases h with rfl | rfl | rfl <;> decide

theorem IsResumeName.ne_nil {name : List Char} (h : IsResumeName name) : name ≠ [] := by
  rcases h with rfl | rfl | ⟨hne, -⟩
  · decide
  · decide
  · exact hne

theorem IsStopName.hash_notMem {name : List Char} (h : IsStopName name) : '#' ∉ name := by
  rcases h with rfl | rfl | rfl <;> decide

theorem IsStateName.hash_notMem {name : List Char} (h : IsStateName name) : '#' ∉ name := by
  rcases h with rfl | rfl | rfl <;> decide

theorem IsResumeName.hash_notMem {name : List Char} (h : IsResumeName name) : '#' ∉ name := by
  rcases h with rfl | rfl | ⟨-, hdigits⟩
  · decide
  · decide
  · intro hmem
    exact absurd (hdigits '#' hmem) (by decide)

/-! ## Notes -/

/-- The mark of a word that begins with a sign: an arrow and a state; an at sign and a word for
stopping, a word for going on or a number, or else a project; a plus sign and a tag; a tilde and
an estimate; or a duration between parentheses. -/
inductive IsNote : Mark → Prop where
  | suffix {name : List Char} (h : IsStateName name) : IsNote (.suffix, name)
  | stop {name : List Char} (h : IsStopName name) : IsNote (.stop, name)
  | resume {name : List Char} (h : IsResumeName name) : IsNote (.resume, name)
  | project {name : List Char} (hne : name ≠ []) (hhash : '#' ∉ name) (hstop : ¬ IsStopName name)
      (hresume : ¬ IsResumeName name) : IsNote (.project, name)
  | tag {text : List Char} (hne : text ≠ []) (hhash : '#' ∉ text) : IsNote (.tag, text)
  | estimate {text : List Char} (hne : text ≠ []) (hhash : '#' ∉ text) : IsNote (.estimate, text)
  | duration {text : List Char} (hhash : '#' ∉ text) : IsNote (.duration, text)

theorem IsNote.isAnnotation {m : Mark} (h : IsNote m) : m.IsAnnotation := by
  cases h with
  | suffix h => exact ⟨h.hash_notMem, (isSome_ofSuffix?_iff _).mpr h⟩
  | stop h =>
    exact ⟨h.hash_notMem, h.ne_nil, (nameKind_eq_stop_iff _).mpr h⟩
  | resume h =>
    exact ⟨h.hash_notMem, h.ne_nil,
      (nameKind_eq_resume_iff h.ne_nil).mpr ⟨fun hstop => hstop.not_isResumeName h, h⟩⟩
  | project hne hhash hstop hresume =>
    refine ⟨hhash, hne, ?_⟩
    -- neither a stop nor work to go on with, so a project is left
    rcases nameKind_cases _ with hkind | hkind | hkind
    · exact absurd ((nameKind_eq_stop_iff _).mp hkind) hstop
    · exact absurd ((nameKind_eq_resume_iff hne).mp hkind).2 hresume
    · exact hkind
  | tag hne hhash => exact ⟨hhash, hne⟩
  | estimate hne hhash => exact ⟨hhash, hne⟩
  | duration hhash => exact ⟨hhash, trivial⟩

theorem isNote_of_isAnnotation {m : Mark} (h : m.IsAnnotation) : IsNote m := by
  obtain ⟨kind, text⟩ := m
  obtain ⟨hhash, hkind⟩ := h
  cases kind with
  | timestamp => exact hkind.elim
  | description => exact hkind.elim
  | remark => exact hkind.elim
  | suffix => exact .suffix ((isSome_ofSuffix?_iff text).mp hkind)
  | stop => exact .stop ((nameKind_eq_stop_iff text).mp hkind.2)
  | resume => exact .resume ((nameKind_eq_resume_iff hkind.1).mp hkind.2).2
  | project =>
    have hname : nameKind text = .project := hkind.2
    refine .project hkind.1 hhash ?_ ?_
    · intro hstop
      rw [(nameKind_eq_stop_iff text).mpr hstop] at hname
      exact TokenKind.noConfusion hname
    · intro hresume
      by_cases hstop : IsStopName text
      · exact hstop.not_isResumeName hresume
      · rw [(nameKind_eq_resume_iff hkind.1).mpr ⟨hstop, hresume⟩] at hname
        exact TokenKind.noConfusion hname
  | tag => exact .tag hkind hhash
  | estimate => exact .estimate hkind hhash
  | duration => exact .duration hhash

/-- The notes are the annotations that a line can have. -/
theorem isNote_iff {m : Mark} : IsNote m ↔ m.IsAnnotation :=
  ⟨IsNote.isAnnotation, isNote_of_isAnnotation⟩

/-! ## Plain words -/

/-- A word without a hash that no sign stands in front of. -/
structure IsPlainText (w : List Char) : Prop where
  hash : '#' ∉ w
  arrow : ∀ rest, w ≠ '-' :: '>' :: rest
  sign : ∀ c ∈ w.head?, c ≠ '@' ∧ c ≠ '+' ∧ c ≠ '~' ∧ c ≠ '('

/-- The plain words are those that the reader takes into the description. -/
theorem classify_eq_none_iff {w : List Char} : classify w = .ok none ↔ IsPlainText w := by
  constructor
  · intro h
    unfold classify at h
    split at h
    · simp at h
    · next hhash =>
      refine ⟨by simpa using hhash, ?_, ?_⟩
      · rintro rest rfl
        simp only at h
        split at h <;> simp at h
      · intro c hc
        obtain ⟨rest, rfl⟩ : ∃ rest, w = c :: rest := by
          cases w with
          | nil => simp at hc
          | cons d rest => exact ⟨rest, by rw [Option.some.inj hc]⟩
        -- a sign in front makes the word a note or a fault
        refine ⟨?_, ?_, ?_, ?_⟩ <;>
          (rintro rfl
           simp only at h
           split at h <;> simp at h)
  · rintro ⟨hhash, harrow, hsign⟩
    unfold classify
    rw [if_neg (by simpa using hhash)]
    split
    · next rest => exact absurd rfl (harrow rest)
    · exact absurd rfl (hsign '@' rfl).1
    · exact absurd rfl (hsign '+' rfl).2.1
    · exact absurd rfl (hsign '~' rfl).2.2.1
    · exact absurd rfl (hsign '(' rfl).2.2.2
    · rfl

end Daybook
