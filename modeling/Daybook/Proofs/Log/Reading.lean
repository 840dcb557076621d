import Daybook.Log
import Daybook.Proofs.Event.Fields

/-!
# The steps of reading a log

A log is read line by line, and all that a line leaves for the lines after it is the clock. The
clock moves on with the timestamp of a line that can be read, whatever else becomes of the line.

* `Log.readLine_spec` : what a single line can give, and the clock after it.
* `Log.mem_readLines_iff` : what many lines give is found on one of them.
-/

namespace Daybook

open Text

/-! ## Timestamps -/

/-- The date, if one is written, and the time that a line starts with, when the line can be read
and the calendar and the clock have them. -/
def stampOf? (line : List Char) : Option (Option Date × TimeOfDay) :=
  match Line.ofText line with
  | .ok (some { tokens := stamp :: _, .. }) => (timestampParts stamp.text.toList).toOption
  | _ => none

/-- The line can be read, its timestamp is understood, and `rest` are its other tokens. -/
def HasStamp (line : List Char) (stamp : Option Date × TimeOfDay) (rest : List Token) : Prop :=
  ∃ l first, Line.ofText line = .ok (some l) ∧ l.tokens = first :: rest ∧
    timestampParts first.text.toList = .ok stamp

theorem stampOf?_of_tokens {line : List Char} {l : Line} (hread : Line.ofText line = .ok (some l))
    {first : Token} {rest : List Token} (htokens : l.tokens = first :: rest) :
    stampOf? line = (timestampParts first.text.toList).toOption := by
  obtain ⟨indent, tokens⟩ := l
  obtain rfl : tokens = first :: rest := htokens
  rw [stampOf?, hread]

theorem stampOf?_eq_some_iff {line : List Char} {stamp : Option Date × TimeOfDay} :
    stampOf? line = some stamp ↔ ∃ rest, HasStamp line stamp rest := by
  constructor
  · intro h
    unfold stampOf? at h
    split at h
    · next indent first rest hread =>
      cases hparts : timestampParts first.text.toList with
      | error cause => simp [hparts, Except.toOption] at h
      | ok parts =>
        obtain rfl : parts = stamp := by simpa [hparts, Except.toOption] using h
        exact ⟨rest, _, first, hread, rfl, hparts⟩
    · simp at h
  · rintro ⟨rest, l, first, hread, htokens, hparts⟩
    rw [stampOf?_of_tokens hread htokens, hparts]
    rfl

namespace Clock

/-- The moment of a timestamp; the clock completes it where no date is written. -/
def complete (clock : Clock) (stamp : Option Date × TimeOfDay) : DateTime :=
  ⟨stamp.1.getD clock.date, stamp.2⟩

/-- The clock after a line. -/
def pass (clock : Clock) (line : List Char) : Clock :=
  match stampOf? line with
  | none => clock
  | some stamp => clock.advance (clock.complete stamp)

theorem pass_of_none {clock : Clock} {line : List Char} (h : stampOf? line = none) :
    clock.pass line = clock := by
  rw [pass, h]

theorem pass_of_some {clock : Clock} {line : List Char} {stamp : Option Date × TimeOfDay}
    (h : stampOf? line = some stamp) :
    clock.pass line = clock.advance (clock.complete stamp) := by
  rw [pass, h]

theorem moment_eq_map (clock : Clock) (text : List Char) :
    clock.moment text =
      (timestampParts text).map fun stamp => (clock.complete stamp, stamp.1.isSome) := by
  rw [moment]
  cases timestampParts text <;> rfl

end Clock

/-! ## Events -/

/-- The event of a line has the moment and the place of the line, and the tokens call for no
warning but those about repeated tags. -/
theorem MakesEvent.place {timestamp : DateTime} {indent number : Nat} {tokens : List Token}
    {event : Event} {warnings : List Warning}
    (h : MakesEvent timestamp indent number tokens event warnings) :
    event.timestamp = timestamp ∧ event.indent = indent ∧ event.line = number ∧
      ∃ repeated, warnings = repeatWarnings number repeated := by
  cases h with
  | stop => exact ⟨rfl, rfl, rfl, [], rfl⟩
  | entry hfind hadd hwork =>
    obtain ⟨hplace, repeated, hwarnings, -⟩ :=
      (Entry.gathers_blank timestamp indent number).addAll hadd
    exact ⟨hplace.timestamp, hplace.indent, hplace.line, repeated, hwarnings⟩

namespace Log

/-! ## A single line -/

/-- What a line can give: nothing if it is silent, and otherwise one problem or one event. -/
inductive Finds (clock : Clock) (number : Nat) (line : List Char) : Log → Prop where
  | nothing (hsilent : isSilent line = true) : Finds clock number line {}
  | problem (hloud : isSilent line = false) {p : Problem} (hline : p.line = number) :
      Finds clock number line { problems := [p] }
  | event (hloud : isSilent line = false) {stamp : Option Date × TimeOfDay} {rest : List Token}
      (hstamp : HasStamp line stamp rest) {event : Event} {warnings : List Warning}
      (hmakes : MakesEvent (clock.complete stamp) (indentOf line) number rest event warnings) :
      Finds clock number line
        { events := [event]
          warnings := clock.backwards number (clock.complete stamp) stamp.1.isSome ++ warnings }

variable {clock : Clock} {number : Nat} {line : List Char}

/-- What a line gives, and the clock after it. -/
theorem readLine_spec (clock : Clock) (number : Nat) (line : List Char) :
    (readLine clock number line).1 = clock.pass line ∧
      Finds clock number line (readLine clock number line).2 := by
  have hloud : ∀ {result}, Line.ofText line = result → result ≠ .ok none →
      isSilent line = false := fun hread hne =>
    Bool.eq_false_iff.mpr fun hsilent => hne (hread ▸ Line.ofText_eq_none_iff.mpr hsilent)
  unfold readLine
  cases hread : Line.ofText line with
  | error fault =>
    have hnone : stampOf? line = none := by rw [stampOf?, hread]
    exact ⟨(Clock.pass_of_none hnone).symm, .problem (hloud hread (by simp)) rfl⟩
  | ok found =>
    cases found with
    | none =>
      have hnone : stampOf? line = none := by rw [stampOf?, hread]
      exact ⟨(Clock.pass_of_none hnone).symm, .nothing (Line.ofText_eq_none_iff.mp hread)⟩
    | some l =>
      have hline := hloud hread (by simp)
      obtain ⟨stamp, rest, htokens⟩ := Line.exists_stamp hread
      obtain ⟨hkind, -⟩ := Line.areAnnotations hread htokens
      have hstamp := stampOf?_of_tokens hread htokens
      have hmoment := clock.moment_eq_map stamp.text.toList
      cases hparts : timestampParts stamp.text.toList with
      | error cause =>
        rw [hparts] at hstamp hmoment
        simp only [Clock.assemble_of_moment_error htokens hkind hmoment]
        exact ⟨(Clock.pass_of_none hstamp).symm, .problem hline rfl⟩
      | ok parts =>
        rw [hparts] at hstamp hmoment
        have hclock : (clock.assemble number l).1 = clock.pass line := by
          rw [Clock.assemble_fst htokens hkind hmoment, Clock.pass_of_some hstamp]
        cases hresult : clock.assemble number l with
        | mk after result =>
          rw [hresult] at hclock
          cases result with
          | error problem =>
            have hnumber := Clock.line_of_assemble (congrArg Prod.snd hresult)
            simp only [hresult]
            exact ⟨hclock, .problem hline hnumber⟩
          | ok made =>
            obtain ⟨event, warnings⟩ := made
            obtain ⟨found, hmakes, rfl⟩ :=
              (Clock.assemble_eq_ok_iff htokens hkind hmoment).mp (congrArg Prod.snd hresult)
            rw [((Line.ofText_of_not_isSilent hline).mp hread).1] at hmakes
            simp only [hresult]
            exact ⟨hclock, .event hline ⟨l, stamp, hread, htokens, hparts⟩ hmakes⟩

/-- All that is known of a line with an event. -/
theorem Finds.of_mem_events {found : Log} (h : Finds clock number line found) {event : Event}
    (hmem : event ∈ found.events) :
    ∃ stamp rest warnings, HasStamp line stamp rest ∧
      MakesEvent (clock.complete stamp) (indentOf line) number rest event warnings ∧
      found.warnings =
        clock.backwards number (clock.complete stamp) stamp.1.isSome ++ warnings := by
  cases h with
  | nothing => simp at hmem
  | problem => simp at hmem
  | event _ hstamp hmakes =>
    obtain rfl := List.mem_singleton.mp hmem
    exact ⟨_, _, _, hstamp, hmakes, rfl⟩

/-- A line is warned about by its own number. -/
theorem Finds.line_of_mem_warnings {found : Log} (h : Finds clock number line found) :
    ∀ warning ∈ found.warnings, warning.line = number := by
  intro warning hmem
  cases h with
  | nothing => simp at hmem
  | problem => simp at hmem
  | event _ _ hmakes =>
    obtain ⟨-, -, -, repeated, rfl⟩ := hmakes.place
    rcases List.mem_append.mp hmem with hmem | hmem
    · unfold Clock.backwards at hmem
      grind [Warning.line]
    · obtain ⟨tag, -, rfl⟩ := List.mem_map.mp hmem
      rfl

/-! ## Many lines -/

@[simp] theorem events_append (a b : Log) : (a ++ b).events = a.events ++ b.events :=
  rfl

@[simp] theorem problems_append (a b : Log) : (a ++ b).problems = a.problems ++ b.problems :=
  rfl

@[simp] theorem warnings_append (a b : Log) : (a ++ b).warnings = a.warnings ++ b.warnings :=
  rfl

theorem readLines_cons (clock : Clock) (number : Nat) (line : List Char)
    (rest : List (List Char)) :
    readLines clock number (line :: rest) =
      (readLine clock number line).2 ++ readLines (clock.pass line) (number + 1) rest := by
  rw [readLines, ← (readLine_spec clock number line).1]

/-- What is found among lines is found on one of them, read with the clock that the lines before it
left. -/
theorem mem_readLines_iff {α : Type} (field : Log → List α) (hnil : field {} = [])
    (happend : ∀ a b : Log, field (a ++ b) = field a ++ field b) {x : α} {clock : Clock}
    {number : Nat} {lines : List (List Char)} :
    x ∈ field (readLines clock number lines) ↔
      ∃ before line after, lines = before ++ line :: after ∧
        x ∈ field (readLine (before.foldl Clock.pass clock) (number + before.length) line).2 := by
  induction lines generalizing clock number with
  | nil => simp [readLines, hnil]
  | cons first rest ih =>
    rw [readLines_cons, happend, List.mem_append, ih]
    constructor
    · rintro (hmem | ⟨before, line, after, rfl, hmem⟩)
      · exact ⟨[], first, rest, rfl, hmem⟩
      · refine ⟨first :: before, line, after, rfl, ?_⟩
        rwa [List.length_cons, List.foldl_cons, Nat.add_comm before.length, ← Nat.add_assoc]
    · rintro ⟨before, line, after, hlines, hmem⟩
      cases before with
      | nil =>
        obtain ⟨rfl, rfl⟩ := List.cons.inj hlines
        exact .inl hmem
      | cons other before =>
        obtain ⟨rfl, rfl⟩ := List.cons.inj hlines
        refine .inr ⟨before, line, after, rfl, ?_⟩
        rwa [List.length_cons, List.foldl_cons, Nat.add_comm before.length,
          ← Nat.add_assoc] at hmem

/-- What is warned about on a line comes from the line with that number. -/
theorem mem_warnings_readLines_iff {clock : Clock} {number : Nat} {before after : List (List Char)}
    {line : List Char} {warning : Warning} (hline : warning.line = number + before.length) :
    warning ∈ (readLines clock number (before ++ line :: after)).warnings ↔
      warning ∈
        (readLine (before.foldl Clock.pass clock) (number + before.length) line).2.warnings := by
  rw [mem_readLines_iff Log.warnings rfl fun _ _ => rfl]
  constructor
  · rintro ⟨front, other, back, hlines, hmem⟩
    have hother := (readLine_spec _ _ _).2.line_of_mem_warnings warning hmem
    -- the lines before have the same number, so they are the same lines
    have hlength : before.length = front.length := by omega
    obtain ⟨rfl, hrest⟩ := List.append_inj hlines hlength
    obtain ⟨rfl, -⟩ := List.cons.inj hrest
    exact hmem
  · intro hmem
    exact ⟨before, line, after, rfl, hmem⟩

end Log

end Daybook
