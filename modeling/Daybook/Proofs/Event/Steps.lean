import Daybook.Event.Assembly
import Daybook.Proofs.Result

/-!
# The steps that make an event

Everything that the steps from tokens to an event can do, said once for each of them. A property
of events goes through the cases here, without a look at how the tokens are taken apart.

* `Entry.adds_of_add` and `Entry.Adds.add_eq` : everything that a token can do to an entry.
* `eventOfTokens_eq_ok_iff` : the two ways to make an event.
-/

namespace Daybook

/-! ## A single token -/

variable {kind : TokenKind} {text : String} {t : Token} {tokens : List Token} {e after : Entry}
  {warnings : List Warning} {repeated : List String}

/-- The entry that a token with the given kind and text makes of `e`, and the tags that it
repeats. A field that was set before is not set again. -/
inductive Entry.Adds (e : Entry) : TokenKind → String → Entry → List String → Prop where
  | description {text : String} : Adds e .description text { e with description := text } []
  | project {text : String} (h : e.project = none) :
      Adds e .project text { e with project := some text } []
  | newTag {text : String} (h : text ∉ e.tags) :
      Adds e .tag text { e with tags := e.tags ++ [text] } []
  | oldTag {text : String} (h : text ∈ e.tags) : Adds e .tag text e [text]
  | estimate {text : String} (h : e.estimate = none) {n : Nat}
      (hn : Duration.parse text = .ok n) :
      Adds e .estimate text { e with estimate := some n } []
  | duration {text : String} (h : e.duration = none) {n : Nat}
      (hn : Duration.parse text = .ok n) :
      Adds e .duration text { e with duration := some n } []
  | suffix {text : String} (h : e.suffix = none) {s : State}
      (hs : State.ofSuffix? text = some s) : Adds e .suffix text { e with suffix := some s } []
  | resume {text : String} (h : e.resume = none) {r : Resume}
      (hr : resumeOfText text = .ok r) : Adds e .resume text { e with resume := some r } []
  | remark {text : String} : Adds e .remark text { e with remark := remarkOf text } []

/-- The warnings about repeated tags of a line. -/
def repeatWarnings (line : Nat) (repeated : List String) : List Warning :=
  repeated.map (.repeatedTag line)

/-- What a token does to an entry is one of these, and the warnings name the tags it repeats. -/
theorem Entry.adds_of_add (h : e.add t = .ok (after, warnings)) :
    ∃ repeated, warnings = repeatWarnings e.line repeated ∧
      e.Adds t.kind t.text after repeated := by
  obtain ⟨kind, text, column⟩ := t
  unfold Entry.add at h
  cases kind with
  | timestamp => simp at h
  | stop => simp at h
  | description =>
    obtain ⟨rfl, rfl⟩ := Prod.mk.inj (Except.ok.inj h)
    exact ⟨[], rfl, .description⟩
  | remark =>
    obtain ⟨rfl, rfl⟩ := Prod.mk.inj (Except.ok.inj h)
    exact ⟨[], rfl, .remark⟩
  | project =>
    simp only at h
    split at h
    · simp at h
    · next hnone =>
      obtain ⟨rfl, rfl⟩ := Prod.mk.inj (Except.ok.inj h)
      exact ⟨[], rfl, .project hnone⟩
  | tag =>
    simp only at h
    split at h
    · next hmem =>
      obtain ⟨rfl, rfl⟩ := Prod.mk.inj (Except.ok.inj h)
      exact ⟨[text], rfl, .oldTag (by simpa using hmem)⟩
    · next hmem =>
      obtain ⟨rfl, rfl⟩ := Prod.mk.inj (Except.ok.inj h)
      exact ⟨[], rfl, .newTag (by simpa using hmem)⟩
  | estimate =>
    simp only at h
    split at h
    · simp at h
    · next hnone =>
      split at h
      · next hread =>
        obtain ⟨rfl, rfl⟩ := Prod.mk.inj (Except.ok.inj h)
        exact ⟨[], rfl, .estimate (by simpa using hnone) hread⟩
      · simp at h
  | duration =>
    simp only at h
    split at h
    · simp at h
    · next hnone =>
      split at h
      · next hread =>
        obtain ⟨rfl, rfl⟩ := Prod.mk.inj (Except.ok.inj h)
        exact ⟨[], rfl, .duration (by simpa using hnone) hread⟩
      · simp at h
  | suffix =>
    simp only at h
    split at h
    · simp at h
    · next hnone =>
      split at h
      · next hread =>
        obtain ⟨rfl, rfl⟩ := Prod.mk.inj (Except.ok.inj h)
        exact ⟨[], rfl, .suffix (by simpa using hnone) hread⟩
      · simp at h
  | resume =>
    simp only at h
    split at h
    · simp at h
    · next hnone =>
      split at h
      · next hread =>
        obtain ⟨rfl, rfl⟩ := Prod.mk.inj (Except.ok.inj h)
        exact ⟨[], rfl, .resume (by simpa using hnone) hread⟩
      · simp at h

theorem Entry.Adds.add_eq (h : e.Adds t.kind t.text after repeated) :
    e.add t = .ok (after, repeatWarnings e.line repeated) := by
  obtain ⟨kind, text, column⟩ := t
  cases h with
  | description => rfl
  | remark => rfl
  | project h => simp [Entry.add, h, repeatWarnings]
  | newTag h => simp [Entry.add, h, repeatWarnings]
  | oldTag h => simp [Entry.add, h, repeatWarnings]
  | estimate h hn => simp [Entry.add, h, hn, repeatWarnings]
  | duration h hn => simp [Entry.add, h, hn, repeatWarnings]
  | suffix h hs => simp [Entry.add, h, hs, repeatWarnings]
  | resume h hr => simp [Entry.add, h, hr, repeatWarnings]

/-- The tokens of a line change nothing of its place. -/
structure Entry.SamePlace (e after : Entry) : Prop where
  timestamp : after.timestamp = e.timestamp
  indent : after.indent = e.indent
  line : after.line = e.line

theorem Entry.SamePlace.trans {last : Entry} (h : e.SamePlace after)
    (hlast : after.SamePlace last) : e.SamePlace last where
  timestamp := hlast.timestamp.trans h.timestamp
  indent := hlast.indent.trans h.indent
  line := hlast.line.trans h.line

theorem Entry.Adds.samePlace (h : e.Adds kind text after repeated) : e.SamePlace after := by
  cases h <;> exact ⟨rfl, rfl, rfl⟩

/-! ## Many tokens -/

/-- Tokens are added one after another. -/
theorem Entry.addAll_cons_eq_ok_iff :
    e.addAll (t :: tokens) = .ok (after, warnings) ↔
      ∃ next first rest, e.add t = .ok (next, first) ∧ next.addAll tokens = .ok (after, rest) ∧
        warnings = first ++ rest := by
  rw [Entry.addAll]
  constructor
  · intro h
    split at h
    · simp at h
    · next next first hfirst =>
      obtain ⟨⟨last, rest⟩, hrest, heq⟩ := bind_eq_ok.mp h
      obtain ⟨rfl, rfl⟩ := Prod.mk.inj (Except.ok.inj heq)
      exact ⟨next, first, rest, hfirst, hrest, rfl⟩
  · rintro ⟨next, first, rest, hfirst, hrest, rfl⟩
    rw [hfirst]
    exact bind_eq_ok.mpr ⟨_, hrest, rfl⟩

/-! ## Stops -/

theorem findStop?_eq_none_iff : findStop? tokens = none ↔ ∀ t ∈ tokens, t.kind ≠ .stop := by
  induction tokens with
  | nil => simp [findStop?]
  | cons t ts ih =>
    rw [List.forall_mem_cons, findStop?]
    split
    · next hstop => simp [hstop]
    · next hstop => simp [hstop, ih]

/-- A stop that is found is one of the tokens, and the others stand around it. -/
theorem eq_of_findStop? {before after : List Token} {found : Token}
    (h : findStop? tokens = some (before, found, after)) :
    tokens = before ++ found :: after ∧ found.kind = .stop := by
  induction tokens generalizing before with
  | nil => simp [findStop?] at h
  | cons t ts ih =>
    unfold findStop? at h
    split at h
    · next hstop =>
      obtain ⟨rfl, rfl, rfl⟩ : [] = before ∧ t = found ∧ ts = after := by simpa using h
      exact ⟨rfl, hstop⟩
    · obtain ⟨⟨front, found', back⟩, hfind, heq⟩ := Option.map_eq_some_iff.mp h
      obtain ⟨rfl, rfl, rfl⟩ : t :: front = before ∧ found' = found ∧ back = after := by
        simpa using heq
      obtain ⟨rfl, hstop⟩ := ih hfind
      exact ⟨rfl, hstop⟩

/-- Only remarks stand beside a stop, and the last of them is kept. -/
theorem stopRemark_eq_ok_iff {stop : Stop} {start remark : Option String} :
    stopRemark stop start tokens = .ok remark ↔
      (∀ t ∈ tokens, t.kind = .remark) ∧
        remark = (tokens.getLast?.map fun t => remarkOf t.text).getD start := by
  induction tokens generalizing start with
  | nil => simp [stopRemark, eq_comm]
  | cons t ts ih =>
    rw [stopRemark, List.forall_mem_cons]
    split
    · next hkind =>
      rw [ih, and_iff_right hkind]
      cases ts with
      | nil => simp
      | cons u us => simp [List.getLast?_cons]
    · next hkind => simp [hkind]

/-! ## Events -/

/-- The event and the warnings that tokens make: a stop with its remark, or an entry that says
what the work is. -/
inductive MakesEvent (timestamp : DateTime) (indent line : Nat) (tokens : List Token) :
    Event → List Warning → Prop where
  | stop {before after : List Token} {found : Token} {stop : Stop} {remark : Option String}
      (hfind : findStop? tokens = some (before, found, after))
      (hstop : Stop.ofWord? found.text = some stop)
      (hremark : stopRemark stop none (before ++ after) = .ok remark) :
      MakesEvent timestamp indent line tokens (.stop { stop, timestamp, remark, indent, line }) []
  | entry {e : Entry} {warnings : List Warning} (hfind : findStop? tokens = none)
      (hadd : Entry.addAll { timestamp, description := "", indent, line } tokens =
        .ok (e, warnings))
      (hwork : (e.isBare && e.resume.isNone) = false) :
      MakesEvent timestamp indent line tokens (.entry e) warnings

/-- The two ways to make an event. -/
theorem eventOfTokens_eq_ok_iff {timestamp : DateTime} {indent line : Nat} {event : Event} :
    eventOfTokens timestamp indent line tokens = .ok (event, warnings) ↔
      MakesEvent timestamp indent line tokens event warnings := by
  unfold eventOfTokens
  constructor
  · intro h
    split at h
    · next before found after hfind =>
      split at h
      · simp at h
      · next stop hstop =>
        obtain ⟨remark, hremark, heq⟩ := bind_eq_ok.mp h
        obtain ⟨rfl, rfl⟩ := Prod.mk.inj (Except.ok.inj heq)
        exact .stop hfind hstop hremark
    · next hfind =>
      obtain ⟨⟨e, found⟩, hadd, heq⟩ := bind_eq_ok.mp h
      simp only at heq
      split at heq
      · simp at heq
      · next hbare =>
        obtain ⟨rfl, rfl⟩ := Prod.mk.inj (Except.ok.inj heq)
        exact .entry hfind hadd (Bool.eq_false_iff.mpr hbare)
  · intro h
    cases h with
    | stop hfind hstop hremark =>
      simp only [hfind, hstop]
      exact bind_eq_ok.mpr ⟨_, hremark, rfl⟩
    | entry hfind hadd hwork =>
      simp only [hfind]
      refine bind_eq_ok.mpr ⟨_, hadd, ?_⟩
      simp only [hwork]
      rfl

/-! ## Lines -/

namespace Clock

variable {clock : Clock} {number : Nat} {l : Line} {stamp : Token} {rest : List Token}

/-- A timestamp that is not understood leaves the clock alone. -/
theorem assemble_of_moment_error (htokens : l.tokens = stamp :: rest)
    (hkind : stamp.kind = .timestamp) {cause : Cause}
    (hmoment : clock.moment stamp.text.toList = .error cause) :
    clock.assemble number l = (clock, .error (Fault.atLine ⟨some stamp.column, cause⟩ number)) := by
  obtain ⟨kind, text, column⟩ := stamp
  obtain rfl : kind = .timestamp := hkind
  unfold assemble
  rw [htokens]
  simp only [hmoment]

variable {t : DateTime} {dated : Bool}

/-- A timestamp that is understood moves the clock on, whatever becomes of the other tokens. -/
theorem assemble_fst (htokens : l.tokens = stamp :: rest) (hkind : stamp.kind = .timestamp)
    (hmoment : clock.moment stamp.text.toList = .ok (t, dated)) :
    (clock.assemble number l).1 = clock.advance t := by
  obtain ⟨kind, text, column⟩ := stamp
  obtain rfl : kind = .timestamp := hkind
  unfold assemble
  rw [htokens]
  simp only [hmoment]

/-- The other tokens make the event, and the clock may call for a warning before theirs. -/
theorem assemble_eq_ok_iff (htokens : l.tokens = stamp :: rest) (hkind : stamp.kind = .timestamp)
    (hmoment : clock.moment stamp.text.toList = .ok (t, dated)) {event : Event} :
    (clock.assemble number l).2 = .ok (event, warnings) ↔
      ∃ found, MakesEvent t l.indent number rest event found ∧
        warnings = clock.backwards number t dated ++ found := by
  obtain ⟨kind, text, column⟩ := stamp
  obtain rfl : kind = .timestamp := hkind
  unfold assemble
  rw [htokens]
  simp only [hmoment, ← eventOfTokens_eq_ok_iff]
  cases hmake : eventOfTokens t l.indent number rest with
  | error fault => simp
  | ok made =>
    obtain ⟨made, found⟩ := made
    constructor
    · intro h
      obtain ⟨rfl, rfl⟩ := Prod.mk.inj (Except.ok.inj h)
      exact ⟨found, rfl, rfl⟩
    · rintro ⟨found', hfound, rfl⟩
      obtain ⟨rfl, rfl⟩ := Prod.mk.inj (Except.ok.inj hfound)
      rfl

/-- Whatever is wrong with a line is a problem on that line. -/
theorem line_of_assemble {problem : Problem} (h : (clock.assemble number l).2 = .error problem) :
    problem.line = number := by
  unfold assemble at h
  split at h
  · split at h
    · obtain rfl := Except.error.inj h
      rfl
    · simp only at h
      split at h
      · obtain rfl := Except.error.inj h
        rfl
      · simp at h
  · obtain rfl := Except.error.inj h
    rfl

end Clock

end Daybook
