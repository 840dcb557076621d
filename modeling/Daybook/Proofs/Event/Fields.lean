import Daybook.Proofs.Distinct
import Daybook.Proofs.Event.Steps
import Daybook.Proofs.Line.Annotations

/-!
# What the tokens put into an entry

An entry is put together token by token. The statement that carries the induction is about all
tokens that were taken so far: a field that is set once holds the value of its only token, the
tags are those of the tokens without repeats, and every tag that was left out is warned about.

* `Entry.Gathers.add`, `Entry.Gathers.addAll` : the fields stay in step with the tokens.
* `Entry.Gathers.exists_addAll_iff` : the tokens that can be added.
-/

namespace Daybook

open scoped List

variable {kind : TokenKind} {seen tokens : List Token} {t : Token} {text : String}
  {e after : Entry} {warnings : List Warning} {repeated : List String}

/-! ## Fields -/

/-- A field that is set at most once, and the texts that set it: without a text it has no value,
and with one text it has the value that the text means. -/
inductive Holds {α : Type} (means : String → α → Prop) : List String → Option α → Prop where
  | unset : Holds means [] none
  | set {text : String} {a : α} (h : means text a) : Holds means [text] (some a)

namespace Holds

variable {α : Type} {means : String → α → Prop} {texts : List String} {field : Option α}

theorem length_le (h : Holds means texts field) : texts.length ≤ 1 := by
  cases h <;> simp

theorem eq_nil_iff (h : Holds means texts field) : texts = [] ↔ field = none := by
  cases h <;> simp

/-- A text may mean the value in a wider sense. -/
theorem imp {other : String → α → Prop} (h : Holds means texts field)
    (himp : ∀ text ∈ texts, ∀ a, means text a → other text a) : Holds other texts field := by
  cases h with
  | unset => exact .unset
  | set ha => exact .set (himp _ (List.mem_singleton_self _) _ ha)

/-- A text sets a field that no text has set. -/
theorem snoc (h : Holds means texts field) (hnone : field = none) {a : α} (ha : means text a) :
    Holds means (texts ++ [text]) (some a) := by
  subst hnone
  cases h
  exact .set ha

end Holds

/-- The field of a kind holds what the texts of the tokens of that kind say. Of several
descriptions or remarks the last one counts. -/
def Entry.Reflects (e : Entry) (texts : List String) : TokenKind → Prop
  | .description => e.description = texts.getLast?.getD ""
  | .project => Holds (fun text project => project = text) texts e.project
  | .tag => e.tags = texts.eraseDups
  | .estimate => Holds (fun text n => Duration.parse text = .ok n) texts e.estimate
  | .duration => Holds (fun text n => Duration.parse text = .ok n) texts e.duration
  | .suffix => Holds (fun text s => s.word = text) texts e.suffix
  | .resume => Holds (fun text r => resumeOfText text = .ok r) texts e.resume
  | .remark => e.remark = texts.getLast?.bind remarkOf
  | .timestamp | .stop => texts = []

/-- The entry holds what the tokens say, and the tags that it does not have are repeats. -/
structure Entry.Gathers (e : Entry) (seen : List Token) (repeated : List String) : Prop where
  fields : ∀ kind, e.Reflects (textsOf kind seen) kind
  repeats : (textsOf .tag seen).Perm (e.tags ++ repeated)

theorem Entry.gathers_blank (timestamp : DateTime) (indent line : Nat) :
    Entry.Gathers { timestamp, description := "", indent, line } [] [] where
  fields kind := by
    cases kind with
    | project => exact .unset
    | estimate => exact .unset
    | duration => exact .unset
    | suffix => exact .unset
    | resume => exact .unset
    | _ => rfl
  repeats := .refl _

theorem word_of_ofSuffix? {s : State} (h : State.ofSuffix? text = some s) : s.word = text := by
  unfold State.ofSuffix? at h
  grind [State.word]

/-- A tag of the token goes to the tags of the entry, or it is a repeat. -/
theorem Entry.Adds.tags_append (h : e.Adds t.kind t.text after repeated) :
    e.tags ++ textsOf .tag [t] = after.tags ++ repeated := by
  obtain ⟨kind, text, column⟩ := t
  cases h <;> simp [textsOf]

/-! ## Many tokens -/

/-- A line has at most one token of the kind. -/
def TokenKind.IsSingle (kind : TokenKind) : Prop :=
  kind ∈ [.project, .estimate, .duration, .suffix, .resume]

instance (kind : TokenKind) : Decidable kind.IsSingle :=
  inferInstanceAs (Decidable (_ ∈ _))

/-- A token of the kind may stand in an entry, and the text can be read as what it asks for. -/
def TokenKind.Admits (text : String) : TokenKind → Prop
  | .timestamp | .stop => False
  | .estimate | .duration => ∃ n, Duration.parse text = .ok n
  | .suffix => ∃ s, State.ofSuffix? text = some s
  | .resume => ∃ r, resumeOfText text = .ok r
  | .description | .project | .tag | .remark => True

namespace Entry.Gathers

/-- A field that is set once is free as long as no token has set it. -/
theorem free_iff (h : e.Gathers seen repeated) :
    (textsOf .project seen = [] ↔ e.project = none) ∧
    (textsOf .estimate seen = [] ↔ e.estimate = none) ∧
    (textsOf .duration seen = [] ↔ e.duration = none) ∧
    (textsOf .suffix seen = [] ↔ e.suffix = none) ∧
    (textsOf .resume seen = [] ↔ e.resume = none) :=
  ⟨(h.fields .project).eq_nil_iff, (h.fields .estimate).eq_nil_iff,
    (h.fields .duration).eq_nil_iff, (h.fields .suffix).eq_nil_iff,
    (h.fields .resume).eq_nil_iff⟩

theorem length_le (h : e.Gathers seen repeated) (hkind : kind.IsSingle) :
    (textsOf kind seen).length ≤ 1 := by
  simp only [TokenKind.IsSingle, List.mem_cons, List.not_mem_nil, or_false] at hkind
  rcases hkind with rfl | rfl | rfl | rfl | rfl
  · exact (h.fields .project).length_le
  · exact (h.fields .estimate).length_le
  · exact (h.fields .duration).length_le
  · exact (h.fields .suffix).length_le
  · exact (h.fields .resume).length_le

theorem mem_tags_iff (h : e.Gathers seen repeated) : text ∈ e.tags ↔ text ∈ textsOf .tag seen := by
  have htags : e.tags = (textsOf .tag seen).eraseDups := h.fields .tag
  rw [htags, List.mem_eraseDups]

/-- The field of the kind of a token takes up what the token says. -/
theorem reflects_self (h : e.Gathers seen repeated) {more : List String}
    (hadds : e.Adds kind text after more) :
    after.Reflects (textsOf kind seen ++ [text]) kind := by
  have hfield := h.fields kind
  cases hadds with
  | description => simp [Reflects]
  | remark => simp [Reflects]
  | project hnone => exact hfield.snoc hnone rfl
  | estimate hnone hn => exact hfield.snoc hnone hn
  | duration hnone hn => exact hfield.snoc hnone hn
  | suffix hnone hs => exact hfield.snoc hnone (word_of_ofSuffix? hs)
  | resume hnone hr => exact hfield.snoc hnone hr
  | newTag hnew =>
    have htags : e.tags = (textsOf .tag seen).eraseDups := hfield
    rw [Reflects, eraseDups_snoc, if_neg (mt h.mem_tags_iff.mpr hnew), htags]
  | oldTag hold =>
    rw [Reflects, eraseDups_snoc, if_pos (h.mem_tags_iff.mp hold)]
    exact hfield

/-- The fields of the other kinds stay. -/
theorem reflects_of_ne {other : TokenKind} {more texts : List String}
    (hadds : e.Adds kind text after more) (hne : kind ≠ other) (h : e.Reflects texts other) :
    after.Reflects texts other := by
  cases hadds <;> cases other <;> first | exact h | exact absurd rfl hne

/-- A token keeps the fields in step with the tokens. -/
theorem add (h : e.Gathers seen repeated) {more : List String}
    (hadds : e.Adds t.kind t.text after more) :
    after.Gathers (seen ++ [t]) (repeated ++ more) where
  fields kind := by
    by_cases hkind : t.kind = kind
    · subst hkind
      rw [textsOf_snoc_self]
      exact h.reflects_self hadds
    · rw [textsOf_snoc_of_ne seen hkind]
      exact reflects_of_ne hadds hkind (h.fields kind)
  repeats := by
    -- a tag of the token goes to the tags of the entry or to the repeats
    have hmoved : e.tags ++ textsOf .tag [t] = after.tags ++ more := hadds.tags_append
    calc textsOf .tag (seen ++ [t])
        = textsOf .tag seen ++ textsOf .tag [t] := textsOf_append _ _ _
      _ ~ e.tags ++ repeated ++ textsOf .tag [t] := h.repeats.append_right _
      _ ~ e.tags ++ textsOf .tag [t] ++ repeated := by
          rw [List.append_assoc, List.append_assoc]
          exact List.perm_append_comm.append_left _
      _ = after.tags ++ more ++ repeated := by rw [hmoved]
      _ ~ after.tags ++ (repeated ++ more) := by
          rw [List.append_assoc]
          exact List.perm_append_comm.append_left _

/-- The tokens that can be added: those that can be read, unless they set a field again. -/
theorem exists_adds_iff (h : e.Gathers seen repeated) :
    (∃ after more, e.Adds kind text after more) ↔
      kind.Admits text ∧ (kind.IsSingle → textsOf kind seen = []) := by
  obtain ⟨hproject, hestimate, hduration, hsuffix, hresume⟩ := h.free_iff
  constructor
  · rintro ⟨after, more, hadds⟩
    cases hadds with
    | description => exact ⟨trivial, fun hsingle => absurd hsingle (by decide)⟩
    | remark => exact ⟨trivial, fun hsingle => absurd hsingle (by decide)⟩
    | newTag _ => exact ⟨trivial, fun hsingle => absurd hsingle (by decide)⟩
    | oldTag _ => exact ⟨trivial, fun hsingle => absurd hsingle (by decide)⟩
    | project hnone => exact ⟨trivial, fun _ => hproject.mpr hnone⟩
    | estimate hnone hn => exact ⟨⟨_, hn⟩, fun _ => hestimate.mpr hnone⟩
    | duration hnone hn => exact ⟨⟨_, hn⟩, fun _ => hduration.mpr hnone⟩
    | suffix hnone hs => exact ⟨⟨_, hs⟩, fun _ => hsuffix.mpr hnone⟩
    | resume hnone hr => exact ⟨⟨_, hr⟩, fun _ => hresume.mpr hnone⟩
  · rintro ⟨hread, hfree⟩
    cases kind with
    | timestamp => exact hread.elim
    | stop => exact hread.elim
    | description => exact ⟨_, _, .description⟩
    | remark => exact ⟨_, _, .remark⟩
    | tag =>
      by_cases hmem : text ∈ e.tags
      · exact ⟨_, _, .oldTag hmem⟩
      · exact ⟨_, _, .newTag hmem⟩
    | project => exact ⟨_, _, .project (hproject.mp (hfree (by decide)))⟩
    | estimate =>
      obtain ⟨n, hn⟩ := hread
      exact ⟨_, _, .estimate (hestimate.mp (hfree (by decide))) hn⟩
    | duration =>
      obtain ⟨n, hn⟩ := hread
      exact ⟨_, _, .duration (hduration.mp (hfree (by decide))) hn⟩
    | suffix =>
      obtain ⟨s, hs⟩ := hread
      exact ⟨_, _, .suffix (hsuffix.mp (hfree (by decide))) hs⟩
    | resume =>
      obtain ⟨r, hr⟩ := hread
      exact ⟨_, _, .resume (hresume.mp (hfree (by decide))) hr⟩

/-- Tokens keep the fields in step, and warn once for each repeated tag. -/
theorem addAll (h : e.Gathers seen repeated)
    (hadd : e.addAll tokens = .ok (after, warnings)) :
    e.SamePlace after ∧ ∃ more, warnings = repeatWarnings e.line more ∧
      after.Gathers (seen ++ tokens) (repeated ++ more) := by
  induction tokens generalizing e seen repeated warnings with
  | nil =>
    obtain ⟨rfl, rfl⟩ := Prod.mk.inj (Except.ok.inj hadd)
    exact ⟨⟨rfl, rfl, rfl⟩, [], rfl, by simpa using h⟩
  | cons t tokens ih =>
    obtain ⟨next, first, rest, hfirst, hrest, rfl⟩ := Entry.addAll_cons_eq_ok_iff.mp hadd
    obtain ⟨more, rfl, hadds⟩ := Entry.adds_of_add hfirst
    -- the entry after the first token is in step with the tokens so far and this one
    obtain ⟨hplace, others, rfl, hlast⟩ := ih (h.add hadds) hrest
    have hnext := hadds.samePlace
    refine ⟨hnext.trans hplace, more ++ others, ?_, ?_⟩
    · rw [hnext.line, repeatWarnings, repeatWarnings, repeatWarnings, List.map_append]
    · rwa [List.append_assoc, List.append_assoc] at hlast

/-- The tokens that can be added one after another: all of them can be read, and no field that is
set once is set again. -/
theorem exists_addAll_iff (h : e.Gathers seen repeated) :
    (∃ result, e.addAll tokens = .ok result) ↔
      (∀ t ∈ tokens, t.kind.Admits t.text) ∧
        ∀ kind : TokenKind, kind.IsSingle → (textsOf kind (seen ++ tokens)).length ≤ 1 := by
  induction tokens generalizing e seen repeated with
  | nil =>
    refine iff_of_true ⟨_, rfl⟩ ⟨by simp, fun kind hkind => ?_⟩
    rw [List.append_nil]
    exact h.length_le hkind
  | cons t tokens ih =>
    have hsplit : seen ++ t :: tokens = seen ++ [t] ++ tokens := by simp
    rw [List.forall_mem_cons, hsplit]
    constructor
    · rintro ⟨⟨last, warnings⟩, hadd⟩
      obtain ⟨next, first, rest, hfirst, hrest, rfl⟩ := Entry.addAll_cons_eq_ok_iff.mp hadd
      obtain ⟨more, rfl, hadds⟩ := Entry.adds_of_add hfirst
      obtain ⟨hread, hsingle⟩ := (ih (h.add hadds)).mp ⟨_, hrest⟩
      exact ⟨⟨(h.exists_adds_iff.mp ⟨_, _, hadds⟩).1, hread⟩, hsingle⟩
    · rintro ⟨⟨hfirst, hread⟩, hsingle⟩
      -- the field of the token is free, or there would be two tokens for it
      have hfree : t.kind.IsSingle → textsOf t.kind seen = [] := by
        intro hkind
        have hcount := hsingle t.kind hkind
        rw [textsOf_append, textsOf_snoc_self] at hcount
        simp only [List.length_append, List.length_singleton] at hcount
        exact List.eq_nil_of_length_eq_zero (by omega)
      obtain ⟨next, more, hadds⟩ := h.exists_adds_iff.mpr ⟨hfirst, hfree⟩
      obtain ⟨⟨last, rest⟩, hrest⟩ := (ih (h.add hadds)).mpr ⟨hread, hsingle⟩
      exact ⟨_, Entry.addAll_cons_eq_ok_iff.mpr
        ⟨next, _, rest, hadds.add_eq, hrest, rfl⟩⟩

end Entry.Gathers

end Daybook
