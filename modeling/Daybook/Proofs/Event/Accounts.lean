import Daybook.Proofs.Event.Fields

/-!
# Every annotation is accounted for

A line whose timestamp is understood is a stop, an entry or a problem, and the tokens alone decide
which. Nothing that the line says is lost without a word: a field has the value of its token, and
a tag that is left out is warned about.

* `Clock.assemble_accounts` : what becomes of the tokens of a line.
-/

namespace Daybook

open Text

variable {tokens : List Token}

/-! ## What a line can be -/

/-- A line that stops work: one stop, and beside it nothing but remarks. -/
structure IsStopLine (tokens : List Token) : Prop where
  stop : (textsOf .stop tokens).length = 1
  others : ∀ t ∈ tokens, t.kind = .stop ∨ t.kind = .remark

/-- A line that begins work: no stop, at most one token for each field that is set once, texts
that can be read, and something that says what the work is. -/
structure IsEntryLine (tokens : List Token) : Prop where
  stop : textsOf .stop tokens = []
  single : ∀ kind : TokenKind, kind.IsSingle → (textsOf kind tokens).length ≤ 1
  estimate : ∀ text ∈ textsOf .estimate tokens, ∃ n, Duration.parse text = .ok n
  duration : ∀ text ∈ textsOf .duration tokens, ∃ n, Duration.parse text = .ok n
  /-- The number of an entry starts from one and fits into 64 bits. -/
  resume : ∀ text ∈ textsOf .resume tokens, (∀ c ∈ text.toList, isDigit c = true) →
    1 ≤ value text.toList ∧ value text.toList < 2 ^ 64
  work : ∃ t ∈ tokens, t.kind ∈ [.description, .project, .tag, .resume]

/-! ## What an event says -/

/-- The text after `@` that says what to go on with. -/
def Resume.IsWritten (text : String) : Resume → Prop
  | .latest => text = "resume"
  | .previous => text = "prev"
  | .numbered n => text ≠ "" ∧ (∀ c ∈ text.toList, isDigit c = true) ∧ value text.toList = n

/-- The stop holds what the tokens say, and nothing else. -/
structure StopLine.Says (s : StopLine) (tokens : List Token) : Prop where
  stop : textsOf .stop tokens = [s.stop.word]
  /-- An empty remark counts as none. -/
  remark : (textsOf .remark tokens).filter (· ≠ "") = s.remark.toList

/-- Every field of the entry holds what the tokens say, and nothing else. -/
structure Entry.Says (e : Entry) (tokens : List Token) : Prop where
  description : textsOf .description tokens = if e.description = "" then [] else [e.description]
  project : Holds (fun text project => project = text) (textsOf .project tokens) e.project
  tags : e.tags = (textsOf .tag tokens).eraseDups
  estimate : Holds (fun text n => Duration.parse text = .ok n) (textsOf .estimate tokens) e.estimate
  duration : Holds (fun text n => Duration.parse text = .ok n) (textsOf .duration tokens) e.duration
  suffix : Holds (fun text s => s.word = text) (textsOf .suffix tokens) e.suffix
  resume : Holds Resume.IsWritten (textsOf .resume tokens) e.resume
  /-- An empty remark counts as none. -/
  remark : (textsOf .remark tokens).filter (· ≠ "") = e.remark.toList

/-! ## Work to go on with -/

variable {text : String} {r : Resume}

/-- A word with a letter in it is not made of digits. -/
theorem not_digits_of_mem {word : String} {c : Char} (hmem : c ∈ word.toList)
    (hc : isDigit c = false) : ¬ ∀ d ∈ word.toList, isDigit d = true := fun hdigits =>
  Bool.noConfusion (hc.symm.trans (hdigits c hmem))

theorem ne_of_digits (hdigits : ∀ c ∈ text.toList, isDigit c = true) {word : String} {c : Char}
    (hmem : c ∈ word.toList) (hc : isDigit c = false) : text ≠ word := by
  rintro rfl
  exact not_digits_of_mem hmem hc hdigits

/-- Digits name the entry that they count. -/
theorem resumeOfText_digits (hne : text ≠ "") (hdigits : ∀ c ∈ text.toList, isDigit c = true) :
    resumeOfText text = .ok r ↔
      r = .numbered (value text.toList) ∧ 1 ≤ value text.toList ∧ value text.toList < 2 ^ 64 := by
  have hresume : text ≠ "resume" := ne_of_digits hdigits (c := 'r') (by decide) (by decide)
  have hprev : text ≠ "prev" := ne_of_digits hdigits (c := 'p') (by decide) (by decide)
  have hne' : text.toList ≠ [] := fun hnil => hne (String.toList_inj.mp hnil)
  have hbound : indexBound = 2 ^ 64 := rfl
  rw [resumeOfText, if_neg hresume, if_neg hprev, readNat?_eq_ite_of_isDigit _ hne' hdigits, hbound]
  generalize value text.toList = n
  generalize 2 ^ 64 = bound
  by_cases hlt : n < bound
  · rw [if_pos hlt]
    cases n with
    | zero => simp
    | succ n => simp [hlt, eq_comm]
  · simp [hlt]

/-- Whether the text of a name for going on can be read, and what it says then. -/
theorem resumeOfText_iff (hname : IsResumeName text.toList) :
    resumeOfText text = .ok r ↔
      r.IsWritten text ∧ ((∀ c ∈ text.toList, isDigit c = true) →
        1 ≤ value text.toList ∧ value text.toList < 2 ^ 64) := by
  rcases hname with hname | hname | ⟨hne, hdigits⟩
  · have htext : text = "resume" := String.toList_inj.mp hname
    have hletter : ¬ ∀ c ∈ text.toList, isDigit c = true := by
      rw [htext]
      exact not_digits_of_mem (c := 'r') (by decide) (by decide)
    have hread : resumeOfText text = .ok .latest := by rw [htext]; rfl
    rw [hread, and_iff_left fun hdigits => absurd hdigits hletter]
    cases r with
    | latest => exact iff_of_true rfl htext
    | previous => exact iff_of_false (by simp) (by rw [Resume.IsWritten, htext]; decide)
    | numbered n => exact iff_of_false (by simp) fun hwritten => hletter hwritten.2.1
  · have htext : text = "prev" := String.toList_inj.mp hname
    have hletter : ¬ ∀ c ∈ text.toList, isDigit c = true := by
      rw [htext]
      exact not_digits_of_mem (c := 'p') (by decide) (by decide)
    have hread : resumeOfText text = .ok .previous := by rw [htext]; rfl
    rw [hread, and_iff_left fun hdigits => absurd hdigits hletter]
    cases r with
    | latest => exact iff_of_false (by simp) (by rw [Resume.IsWritten, htext]; decide)
    | previous => exact iff_of_true rfl htext
    | numbered n => exact iff_of_false (by simp) fun hwritten => hletter hwritten.2.1
  · have hne' : text ≠ "" := by
      rintro rfl
      exact hne rfl
    rw [resumeOfText_digits hne' hdigits, forall_prop_of_true hdigits]
    refine and_congr_left fun _ => ?_
    cases r with
    | latest =>
      exact iff_of_false (by simp) (ne_of_digits hdigits (c := 'r') (by decide) (by decide))
    | previous =>
      exact iff_of_false (by simp) (ne_of_digits hdigits (c := 'p') (by decide) (by decide))
    | numbered n =>
      rw [Resume.numbered.injEq, eq_comm]
      exact ⟨fun hvalue => ⟨hne', hdigits, hvalue⟩, fun hwritten => hwritten.2.2⟩

theorem exists_isWritten (hname : IsResumeName text.toList) : ∃ r : Resume, r.IsWritten text := by
  rcases hname with hname | hname | ⟨hne, hdigits⟩
  · exact ⟨.latest, String.toList_inj.mp hname⟩
  · exact ⟨.previous, String.toList_inj.mp hname⟩
  · refine ⟨.numbered (value text.toList), ?_, hdigits, rfl⟩
    rintro rfl
    exact hne rfl

/-! ## Remarks -/

/-- A single remark is kept, unless it is empty. -/
theorem toList_remarkOf {texts : List String} (h : texts.length ≤ 1) :
    (texts.getLast?.bind remarkOf).toList = texts.filter (· ≠ "") := by
  match texts, h with
  | [], _ => rfl
  | [text], _ => by_cases hempty : text = "" <;> simp [remarkOf, hempty]

/-! ## Lines that stop work -/

section Stop

variable {before after : List Token} {found : Token}

theorem word_of_ofWord? {stop : Stop} (h : Stop.ofWord? text = some stop) : stop.word = text := by
  unfold Stop.ofWord? at h
  grind [Stop.word]

/-- A stop that is found makes a line that stops work if nothing but remarks stands around it. -/
theorem isStopLine_iff (hfind : findStop? tokens = some (before, found, after)) :
    IsStopLine tokens ↔ ∀ t ∈ before ++ after, t.kind = .remark := by
  obtain ⟨rfl, hkind⟩ := eq_of_findStop? hfind
  have hmem : ∀ t, t ∈ before ++ found :: after ↔ t ∈ found :: (before ++ after) := fun t =>
    List.perm_middle.mem_iff
  have hcount : (textsOf .stop (before ++ found :: after)).length =
      (textsOf .stop (before ++ after)).length + 1 := by
    rw [textsOf_append, textsOf_append, textsOf_cons_of_eq _ hkind]
    simp only [List.length_append, List.length_cons, Nat.add_assoc]
  constructor
  · rintro ⟨hstop, hothers⟩ t ht
    have hnone : textsOf .stop (before ++ after) = [] :=
      List.eq_nil_of_length_eq_zero (by omega)
    have hboth := hothers t ((hmem t).mpr (List.mem_cons_of_mem _ ht))
    exact hboth.resolve_left (textsOf_eq_nil_iff.mp hnone t ht)
  · intro hremarks
    have hnone : textsOf .stop (before ++ after) = [] :=
      textsOf_eq_nil_iff.mpr fun t ht => by rw [hremarks t ht]; exact TokenKind.noConfusion
    refine ⟨by rw [hcount, hnone]; rfl, fun t ht => ?_⟩
    rcases List.mem_cons.mp ((hmem t).mp ht) with rfl | ht
    · exact .inl hkind
    · exact .inr (hremarks t ht)

/-- The stop that is made holds what the tokens say. -/
theorem AreAnnotations.stop_says (h : AreAnnotations tokens)
    (hfind : findStop? tokens = some (before, found, after)) {stop : Stop}
    (hstop : Stop.ofWord? found.text = some stop) {remark : Option String}
    (hremark : stopRemark stop none (before ++ after) = .ok remark) (timestamp : DateTime)
    (indent line : Nat) : StopLine.Says { stop, timestamp, remark, indent, line } tokens := by
  obtain ⟨hremarks, rfl⟩ := stopRemark_eq_ok_iff.mp hremark
  obtain ⟨rfl, hkind⟩ := eq_of_findStop? hfind
  have hstops : ∀ ts : List Token, (∀ t ∈ ts, t.kind = .remark) → textsOf .stop ts = [] := by
    intro ts hts
    exact textsOf_eq_nil_iff.mpr fun t ht => by rw [hts t ht]; exact TokenKind.noConfusion
  rw [List.forall_mem_append] at hremarks
  have htexts : textsOf .remark (before ++ found :: after) = (before ++ after).map Token.text := by
    have hne : found.kind ≠ .remark := by rw [hkind]; exact TokenKind.noConfusion
    rw [textsOf_append, textsOf_cons_of_ne _ hne, ← textsOf_append,
      textsOf_eq_map (List.forall_mem_append.mpr hremarks)]
  refine ⟨?_, ?_⟩
  · rw [textsOf_append, textsOf_cons_of_eq _ hkind, hstops before hremarks.1,
      hstops after hremarks.2, word_of_ofWord? hstop]
    rfl
  · rw [← toList_remarkOf h.remark, htexts, List.getLast?_map]
    cases (before ++ after).getLast? <;> rfl

end Stop

/-! ## Lines that begin work -/

/-- A line begins work if its tokens can all be added to an entry, which then says something. -/
theorem AreAnnotations.isEntryLine_iff (h : AreAnnotations tokens) :
    IsEntryLine tokens ↔
      findStop? tokens = none ∧ (∀ t ∈ tokens, t.kind.Admits t.text) ∧
        (∀ kind : TokenKind, kind.IsSingle → (textsOf kind tokens).length ≤ 1) ∧
        ∃ t ∈ tokens, t.kind ∈ [.description, .project, .tag, .resume] := by
  rw [findStop?_eq_none_iff, ← textsOf_eq_nil_iff]
  constructor
  · rintro ⟨hstop, hsingle, hestimate, hduration, hresume, hwork⟩
    refine ⟨hstop, ?_, hsingle, hwork⟩
    rintro ⟨kind, text, column⟩ ht
    have hmem : text ∈ textsOf kind tokens := mem_textsOf.mpr ⟨_, ht, rfl, rfl⟩
    cases kind with
    | timestamp => exact absurd rfl (h.timestamp _ ht)
    | stop => exact absurd rfl (textsOf_eq_nil_iff.mp hstop _ ht)
    | estimate => exact hestimate text hmem
    | duration => exact hduration text hmem
    | suffix =>
      have hread := (isSome_ofSuffix?_iff _).mpr (h.suffix hmem)
      rw [String.ofList_toList] at hread
      exact Option.isSome_iff_exists.mp hread
    | resume =>
      obtain ⟨r, hr⟩ := exists_isWritten (h.resume hmem)
      exact ⟨r, (resumeOfText_iff (h.resume hmem)).mpr ⟨hr, hresume text hmem⟩⟩
    | _ => exact trivial
  · rintro ⟨hstop, hadmits, hsingle, hwork⟩
    have hread : ∀ kind : TokenKind, ∀ text ∈ textsOf kind tokens, kind.Admits text := by
      intro kind text hmem
      obtain ⟨t, ht, rfl, rfl⟩ := mem_textsOf.mp hmem
      exact hadmits t ht
    refine ⟨hstop, hsingle, hread .estimate, hread .duration, fun text hmem => ?_, hwork⟩
    obtain ⟨r, hr⟩ := hread .resume text hmem
    exact ((resumeOfText_iff (h.resume hmem)).mp hr).2

section Entry

variable {e : Entry} {repeated : List String}

/-- The description is the text of the only token for one, or empty without one. -/
theorem AreAnnotations.textsOf_description (h : AreAnnotations tokens)
    (hdescription : e.description = (textsOf .description tokens).getLast?.getD "") :
    textsOf .description tokens = if e.description = "" then [] else [e.description] := by
  have hne : ∀ text ∈ textsOf .description tokens, text ≠ "" := by
    intro text hmem
    obtain ⟨t, ht, hkind, rfl⟩ := mem_textsOf.mp hmem
    rcases h.token t ht with ⟨-, hne⟩ | hnote | hremark
    · exact hne
    · exact absurd hkind hnote.kind_ne.1
    · rw [hkind] at hremark
      exact TokenKind.noConfusion hremark
  have hone := h.description
  rw [hdescription]
  match textsOf .description tokens, hne, hone with
  | [], _, _ => rfl
  | [text], hne, _ => simp [hne text]

/-- An entry made of the tokens of a line says what they say. -/
theorem AreAnnotations.entry_says (h : AreAnnotations tokens)
    (hgathers : e.Gathers tokens repeated) : e.Says tokens where
  description := h.textsOf_description (hgathers.fields .description)
  project := hgathers.fields .project
  tags := hgathers.fields .tag
  estimate := hgathers.fields .estimate
  duration := hgathers.fields .duration
  suffix := hgathers.fields .suffix
  resume := by
    have hresume : Holds _ (textsOf .resume tokens) e.resume := hgathers.fields .resume
    exact hresume.imp fun text hmem r hr => ((resumeOfText_iff (h.resume hmem)).mp hr).1
  remark := by
    have hremark : e.remark = (textsOf .remark tokens).getLast?.bind remarkOf :=
      hgathers.fields .remark
    rw [hremark, toList_remarkOf h.remark]

/-- The entry says what the work is exactly when one of the tokens does. -/
theorem AreAnnotations.says_work_iff (h : AreAnnotations tokens)
    (hgathers : e.Gathers tokens repeated) :
    (e.isBare && e.resume.isNone) = false ↔
      ∃ t ∈ tokens, t.kind ∈ [.description, .project, .tag, .resume] := by
  have hdescription : e.description = "" ↔ textsOf .description tokens = [] := by
    rw [h.textsOf_description (hgathers.fields .description)]
    split
    · next hempty => simp [hempty]
    · next hempty => simp [hempty]
  have htags : e.tags = [] ↔ textsOf .tag tokens = [] := by
    have htags : e.tags = (textsOf .tag tokens).eraseDups := hgathers.fields .tag
    rw [htags, eraseDups_eq_nil_iff]
  obtain ⟨hproject, -, -, -, hresume⟩ := hgathers.free_iff
  -- nothing is said exactly when there is no token of any of these kinds
  have hbare : (e.isBare && e.resume.isNone) = true ↔
      ∀ kind ∈ [TokenKind.description, .project, .tag, .resume], textsOf kind tokens = [] := by
    simp [Entry.isBare, hdescription, htags, ← hproject, ← hresume, and_assoc]
  rw [← Bool.not_eq_true, hbare]
  simp only [textsOf_eq_nil_iff]
  constructor
  · intro hsome
    push Not at hsome
    obtain ⟨kind, hkind, t, ht, rfl⟩ := hsome
    exact ⟨t, ht, hkind⟩
  · rintro ⟨t, ht, hkind⟩ hnone
    exact hnone t.kind hkind t ht rfl

end Entry

/-! ## Events -/

variable {timestamp : DateTime} {indent number : Nat} {event : Event} {warnings : List Warning}

/-- A line with one stop and remarks makes a stop, and no other line does. -/
theorem AreAnnotations.exists_stop_iff (h : AreAnnotations tokens) (timestamp : DateTime)
    (indent number : Nat) :
    (∃ s warnings, MakesEvent timestamp indent number tokens (.stop s) warnings) ↔
      IsStopLine tokens := by
  constructor
  · rintro ⟨s, warnings, hmakes⟩
    cases hmakes with
    | stop hfind hstop hremark =>
      exact (isStopLine_iff hfind).mpr (stopRemark_eq_ok_iff.mp hremark).1
  · intro hline
    cases hfind : findStop? tokens with
    | none =>
      have hnone := textsOf_eq_nil_iff.mpr (findStop?_eq_none_iff.mp hfind)
      have hone := hline.stop
      rw [hnone] at hone
      exact absurd hone (by decide)
    | some found =>
      obtain ⟨before, found, after⟩ := found
      -- the word of the stop is one that the reader knows
      obtain ⟨htokens, hkind⟩ := eq_of_findStop? hfind
      have hmem : found.text ∈ textsOf .stop tokens :=
        mem_textsOf.mpr ⟨found, by simp [htokens], hkind, rfl⟩
      have hknown := (isSome_ofWord?_iff _).mpr (h.stop hmem)
      rw [String.ofList_toList] at hknown
      obtain ⟨stop, hstop⟩ := Option.isSome_iff_exists.mp hknown
      have hremarks := (isStopLine_iff hfind).mp hline
      exact ⟨_, _, .stop hfind hstop (stopRemark_eq_ok_iff.mpr ⟨hremarks, rfl⟩)⟩

theorem AreAnnotations.exists_entry_iff (h : AreAnnotations tokens) (timestamp : DateTime)
    (indent number : Nat) :
    (∃ e warnings, MakesEvent timestamp indent number tokens (.entry e) warnings) ↔
      IsEntryLine tokens := by
  have hblank := Entry.gathers_blank timestamp indent number
  rw [h.isEntryLine_iff]
  constructor
  · rintro ⟨e, warnings, hmakes⟩
    cases hmakes with
    | entry hfind hadd hwork =>
      obtain ⟨hadmits, hsingle⟩ := hblank.exists_addAll_iff.mp ⟨_, hadd⟩
      obtain ⟨-, more, -, hgathers⟩ := hblank.addAll hadd
      exact ⟨hfind, hadmits, hsingle, (h.says_work_iff hgathers).mp hwork⟩
  · rintro ⟨hfind, hadmits, hsingle, hwork⟩
    obtain ⟨⟨e, warnings⟩, hadd⟩ := hblank.exists_addAll_iff.mpr ⟨hadmits, hsingle⟩
    obtain ⟨-, more, -, hgathers⟩ := hblank.addAll hadd
    exact ⟨e, warnings, .entry hfind hadd ((h.says_work_iff hgathers).mpr hwork)⟩

/-- The stop that a line makes. -/
theorem AreAnnotations.makes_stop (h : AreAnnotations tokens) {s : StopLine}
    (hmakes : MakesEvent timestamp indent number tokens (.stop s) warnings) :
    s.Says tokens ∧ s.timestamp = timestamp ∧ s.indent = indent ∧ s.line = number ∧
      warnings = [] := by
  cases hmakes with
  | stop hfind hstop hremark =>
    exact ⟨h.stop_says hfind hstop hremark timestamp indent number, rfl, rfl, rfl, rfl⟩

/-- The entry that a line makes. -/
theorem AreAnnotations.makes_entry (h : AreAnnotations tokens) {e : Entry}
    (hmakes : MakesEvent timestamp indent number tokens (.entry e) warnings) :
    e.Says tokens ∧ e.timestamp = timestamp ∧ e.indent = indent ∧ e.line = number ∧
      ∃ repeated, warnings = repeated.map (.repeatedTag number) ∧
        (textsOf .tag tokens).Perm (e.tags ++ repeated) := by
  cases hmakes with
  | entry hfind hadd hwork =>
    obtain ⟨hplace, repeated, hwarnings, hgathers⟩ :=
      (Entry.gathers_blank timestamp indent number).addAll hadd
    exact ⟨h.entry_says hgathers, hplace.timestamp, hplace.indent, hplace.line, repeated,
      hwarnings, hgathers.repeats⟩

/-! ## Lines -/

/-- A line that can be read and whose timestamp is understood is a stop exactly when its other
tokens are one stop and remarks. It is an entry exactly when they are no stop, at most one token
for each field that is set once, texts that can be read, and something that says what the work
is. Then every field holds what its token says, and one warning names each tag that was left out.
Any other line is a problem. -/
theorem Clock.assemble_accounts (clock : Clock) (number : Nat) {line : List Char} {l : Line}
    (hline : Line.ofText line = .ok (some l)) {stamp : Token} {rest : List Token}
    (htokens : l.tokens = stamp :: rest) {t : DateTime} {dated : Bool}
    (hstamp : clock.moment stamp.text.toList = .ok (t, dated)) :
    ((∃ s warnings, (clock.assemble number l).2 = .ok (.stop s, warnings)) ↔ IsStopLine rest) ∧
    (∀ s warnings, (clock.assemble number l).2 = .ok (.stop s, warnings) →
      s.Says rest ∧ s.timestamp = t ∧ s.indent = l.indent ∧ s.line = number ∧
        warnings = clock.backwards number t dated) ∧
    ((∃ e warnings, (clock.assemble number l).2 = .ok (.entry e, warnings)) ↔ IsEntryLine rest) ∧
    (∀ e warnings, (clock.assemble number l).2 = .ok (.entry e, warnings) →
      e.Says rest ∧ e.timestamp = t ∧ e.indent = l.indent ∧ e.line = number ∧
        ∃ repeated, warnings =
            clock.backwards number t dated ++ repeated.map (.repeatedTag number) ∧
          (textsOf .tag rest).Perm (e.tags ++ repeated)) ∧
    (¬ IsStopLine rest → ¬ IsEntryLine rest →
      ∃ problem, (clock.assemble number l).2 = .error problem ∧ problem.line = number) := by
  obtain ⟨hkind, hannotations⟩ := Line.areAnnotations hline htokens
  have hok : ∀ {event warnings}, (clock.assemble number l).2 = .ok (event, warnings) ↔
      ∃ found, MakesEvent t l.indent number rest event found ∧
        warnings = clock.backwards number t dated ++ found :=
    clock.assemble_eq_ok_iff htokens hkind hstamp
  have hstop := hannotations.exists_stop_iff t l.indent number
  have hentry := hannotations.exists_entry_iff t l.indent number
  refine ⟨?_, ?_, ?_, ?_, ?_⟩
  · rw [← hstop]
    constructor
    · rintro ⟨s, warnings, h⟩
      obtain ⟨found, hmakes, -⟩ := hok.mp h
      exact ⟨s, found, hmakes⟩
    · rintro ⟨s, found, hmakes⟩
      exact ⟨s, _, hok.mpr ⟨found, hmakes, rfl⟩⟩
  · intro s warnings h
    obtain ⟨found, hmakes, rfl⟩ := hok.mp h
    obtain ⟨hfields, htime, hindent, hnumber, rfl⟩ := hannotations.makes_stop hmakes
    exact ⟨hfields, htime, hindent, hnumber, List.append_nil _⟩
  · rw [← hentry]
    constructor
    · rintro ⟨e, warnings, h⟩
      obtain ⟨found, hmakes, -⟩ := hok.mp h
      exact ⟨e, found, hmakes⟩
    · rintro ⟨e, found, hmakes⟩
      exact ⟨e, _, hok.mpr ⟨found, hmakes, rfl⟩⟩
  · intro e warnings h
    obtain ⟨found, hmakes, rfl⟩ := hok.mp h
    obtain ⟨hfields, htime, hindent, hnumber, repeated, rfl, hperm⟩ :=
      hannotations.makes_entry hmakes
    exact ⟨hfields, htime, hindent, hnumber, repeated, rfl, hperm⟩
  · intro hnoStop hnoEntry
    cases hresult : (clock.assemble number l).2 with
    | error problem => exact ⟨problem, rfl, Clock.line_of_assemble hresult⟩
    | ok result =>
      -- an event would be a stop or an entry
      obtain ⟨event, warnings⟩ := result
      obtain ⟨found, hmakes, -⟩ := hok.mp hresult
      cases event with
      | stop s => exact absurd (hstop.mp ⟨s, found, hmakes⟩) hnoStop
      | entry e => exact absurd (hentry.mp ⟨e, found, hmakes⟩) hnoEntry

/-- A tag is repeated and the remark is empty: the entry has the tag once and no remark, and one
warning names the tag. -/
theorem Clock.assemble_accounts_repeated :
    let clock : Clock := { date := ⟨2025, 3, 10, by decide⟩ }
    let t : DateTime := ⟨clock.date, ⟨9, 5, 0, by decide, by decide, by decide⟩⟩
    let rest : List Token := [⟨.description, "Review", 6⟩, ⟨.tag, "b", 13⟩, ⟨.project, "a", 16⟩,
      ⟨.tag, "b", 19⟩, ⟨.remark, "", 22⟩]
    let l : Line := ⟨0, ⟨.timestamp, "9:05", 1⟩ :: rest⟩
    let e : Entry :=
      { timestamp := t, description := "Review", project := some "a", tags := ["b"], indent := 0,
        line := 3 }
    Line.ofText "9:05 Review +b @a +b #".toList = .ok (some l) ∧
      clock.moment "9:05".toList = .ok (t, false) ∧
      (clock.assemble 3 l).2 = .ok (.entry e, [.repeatedTag 3 "b"]) ∧ e.Says rest := by
  intro clock t rest l e
  have hline : Line.ofText "9:05 Review +b @a +b #".toList = .ok (some l) := by rfl
  have hstamp : clock.moment "9:05".toList = .ok (t, false) := by rfl
  have hmade : (clock.assemble 3 l).2 = .ok (.entry e, [.repeatedTag 3 "b"]) := by rfl
  obtain ⟨-, -, -, hentry, -⟩ := clock.assemble_accounts 3 hline rfl hstamp
  exact ⟨hline, hstamp, hmade, (hentry e _ hmade).1⟩

end Daybook
