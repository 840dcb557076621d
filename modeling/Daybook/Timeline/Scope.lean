import Daybook.Event
import Daybook.Timeline.Nesting

/-!
# Where work ends

Work that has begun is running until something closes it. A new entry closes the running work
that is indented at least as far. A stop does the same; where nothing is indented that far, it
closes the work that began last. Work with a stated duration ends by itself and never runs.
-/

namespace Daybook.Timeline

/-- The end of a piece of work and the state it is left in. -/
structure Closing where
  stop : DateTime
  state : State
deriving DecidableEq, Repr

/-- What an event does to the work that it closes. -/
def closingBy : Event → Closing
  | .entry e => ⟨e.timestamp, .completed⟩
  | .stop s => ⟨s.timestamp, s.stop.state⟩

/-- The running work that an event closes; running work is listed latest first. -/
def closedBy (event : Event) (running : List Level) : List Level :=
  let deeper := running.takeWhile fun level => event.indent ≤ level.indent
  match event, deeper with
  | .stop _, [] => running.take 1
  | _, _ => deeper

/-- The running work that an event leaves running. -/
def keptBy (event : Event) (running : List Level) : List Level :=
  running.drop (closedBy event running).length

/-- The closings that a list of events brings about, each with the position of the entry it
closes. The first entry among the events is at position `index`. -/
def closingsFrom (index : Nat) (running : List Level) : List Event → List (Nat × Closing)
  | [] => []
  | event :: rest =>
    let closed := (closedBy event running).map fun level => (level.index, closingBy event)
    let kept := keptBy event running
    match event with
    | .stop _ => closed ++ closingsFrom index kept rest
    | .entry e =>
      -- an entry that ends by itself is closed at once and never runs
      match e.statedEnd with
      | some stop => closed ++ (index, ⟨stop, .completed⟩) :: closingsFrom (index + 1) kept rest
      | none => closed ++ closingsFrom (index + 1) (⟨index, e.indent⟩ :: kept) rest

/-- The closings that a log brings about. -/
def closings (events : List Event) : List (Nat × Closing) :=
  closingsFrom 0 [] events

end Daybook.Timeline
