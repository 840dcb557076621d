import Daybook.Session.State
import Daybook.Text.Decimal

/-!
# Session numbers

The store numbers its sessions from one upwards. A number that comes from elsewhere is checked
before it counts as the number of a session, and so is the word for a state.
-/

namespace Daybook

/-- The number of a stored session. -/
structure SessionId where
  value : Int
  pos : 0 < value
deriving DecidableEq, Repr

/-- Why a value is not one that the store would write. -/
inductive ValueError where
  /-- The number of a session has to be positive. -/
  | nonPositiveId (value : Int)
  /-- The word denotes no state. -/
  | unknownState (word : String)
deriving DecidableEq, Repr

/-- The sentence that explains the error. -/
def ValueError.message : ValueError → String
  | .nonPositiveId value => "session ID must be positive, got " ++ Text.ofInt value
  | .unknownState word => "invalid session state: " ++ word

namespace SessionId

/-- The session number with the given value. -/
def ofInt (value : Int) : Except ValueError SessionId :=
  if h : 0 < value then .ok ⟨value, h⟩ else .error (.nonPositiveId value)

/-- The number in digits. -/
def text (id : SessionId) : String :=
  Text.ofInt id.value

/-- The number after this one. -/
def next (id : SessionId) : SessionId :=
  ⟨id.value + 1, by have := id.pos; omega⟩

instance : LT SessionId := ⟨fun a b => a.value < b.value⟩
instance : LE SessionId := ⟨fun a b => a.value ≤ b.value⟩

instance (a b : SessionId) : Decidable (a < b) := inferInstanceAs (Decidable (a.value < b.value))
instance (a b : SessionId) : Decidable (a ≤ b) := inferInstanceAs (Decidable (a.value ≤ b.value))

@[ext]
theorem ext {a b : SessionId} (h : a.value = b.value) : a = b := by
  cases a
  cases b
  simp_all

theorem ofInt_value (id : SessionId) : ofInt id.value = .ok id := by
  simp [ofInt, id.pos]

end SessionId

/-- The state that a word denotes, with the reason if there is none. -/
def State.ofWord (word : String) : Except ValueError State :=
  match State.ofWord? word with
  | some state => .ok state
  | none => .error (.unknownState word)

end Daybook
