import Daybook.Proofs.Event.Soundness

/-!
# Writing a log undoes reading it

The events of any log are canonical, so their lines make a log of the same events: nothing that
was read is lost, and nothing in the canonical lines is a problem or calls for a warning.

* `Log.ofText_intercalate_text` : reading the canonical lines gives the events back.
-/

namespace Daybook

namespace Log

/-! ## Lines that were read -/

/-- The events of lines are canonical, when the date that the first line may leave out has a
four-digit year. -/
theorem canonical_of_mem_readLines {clock : Clock} (hclock : clock.date.FourDigit) {number : Nat}
    {lines : List (List Char)} (hlines : ∀ line ∈ lines, '\n' ∉ line) :
    ∀ event ∈ (readLines clock number lines).events, event.Canonical := by
  induction lines generalizing clock number with
  | nil => simp [readLines]
  | cons line lines ih =>
    -- the clock after a line has a date with a four-digit year again
    obtain ⟨hdate, hfound⟩ := readLine_sound hclock number (hlines line List.mem_cons_self)
    intro event hmem
    rw [readLines_cons] at hmem
    rcases List.mem_append.mp hmem with hmem | hmem
    · exact hfound event hmem
    · exact ih hdate (fun other hother => hlines other (List.mem_cons_of_mem _ hother)) event hmem

theorem canonical_of_mem_ofText {base : Date} (hbase : base.FourDigit) (text : String) :
    ∀ event ∈ (ofText base text).events, event.Canonical :=
  canonical_of_mem_readLines hbase fun _ hline => Text.lineFeed_notMem_of_mem_lines hline

/-! ## Lines that were written -/

/-- The lines of canonical events are read as the events, whatever was read before them. -/
theorem readLines_text {events : List Event} (h : ∀ event ∈ events, event.Canonical)
    (clock : Clock) (number : Nat) :
    readLines clock number (events.map fun event => event.text.toList) =
      { events := events.mapIdx fun i event => event.atLine (number + i) } := by
  induction events generalizing clock number with
  | nil => rfl
  | cons event events ih =>
    -- each line sets the clock anew, so the clock that was there before does not matter
    have hline := Event.readLine_text (h event List.mem_cons_self) clock number
    have hrest := ih (fun other hother => h other (List.mem_cons_of_mem _ hother))
      (clock.advance event.timestamp) (number + 1)
    rw [List.map_cons, readLines, hline]
    simp only [hrest, List.mapIdx_cons, Nat.add_zero, Nat.add_assoc, Nat.add_comm 1]
    rfl

/-- The lines of a text made of the lines of canonical events are those lines. -/
theorem lines_intercalate_text {events : List Event} (h : ∀ event ∈ events, event.Canonical) :
    Text.lines ("\n".intercalate (events.map Event.text)).toList =
      events.map fun event => event.text.toList := by
  have hfeed : "\n".toList = ['\n'] := rfl
  rw [String.toList_intercalate, List.map_map, hfeed, Text.intercalate_eq_joinWith]
  apply Text.lines_joinWith
  intro line hline
  obtain ⟨event, hevent, rfl⟩ := List.mem_map.mp hline
  exact (h event hevent).isLine

/-! ## Round trip -/

/-- The events that were read from any text, written one to a line, are read again as the same
events on the lines 1, 2, 3, …, without a problem or a warning and whatever date the second
reading starts with. -/
theorem ofText_intercalate_text (text : String) {base : Date} (hbase : base.FourDigit)
    (other : Date) :
    ofText other ("\n".intercalate ((ofText base text).events.map Event.text)) =
      { events := (ofText base text).events.mapIdx fun i event => event.atLine (i + 1)
        problems := []
        warnings := [] } := by
  have hcanonical := canonical_of_mem_ofText hbase text
  have hread := readLines_text hcanonical { date := other } 1
  rw [← lines_intercalate_text hcanonical] at hread
  simp only [Nat.add_comm 1] at hread
  exact hread

/-- The date, the tags, the blanks and the empty line of the text are normalised. -/
theorem ofText_intercalate_text_sample :
    Date.FourDigit ⟨2024, 3, 1, by decide⟩ ∧
      ofText ⟨-1, 1, 1, by decide⟩ ("\n".intercalate ((ofText ⟨2024, 3, 1, by decide⟩
        "9:05  Review   notes +b @a +b ~90m #  odd  \n\n\t 10:00:00 @pause").events.map
          Event.text)) =
        { events :=
            [.entry
              { timestamp := ⟨⟨2024, 3, 1, by decide⟩, ⟨9, 5, 0, by decide, by decide, by decide⟩⟩
                description := "Review notes"
                project := some "a"
                tags := ["b"]
                estimate := some 90
                remark := some "odd"
                indent := 0
                line := 1 },
            .stop
              { stop := .pause
                timestamp := ⟨⟨2024, 3, 1, by decide⟩, ⟨10, 0, 0, by decide, by decide, by decide⟩⟩
                indent := 2
                line := 2 }] } := by
  refine ⟨by decide, ?_⟩
  rw [ofText_intercalate_text _ (by decide)]
  decide +kernel

end Log

end Daybook
