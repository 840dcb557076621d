/-!
# Nesting by indentation

An entry interrupts the nearest entry before it that is indented less. Going through the
indentations in order, the candidates form a stack, from the deepest to the shallowest.
-/

namespace Daybook.Timeline

/-- An entry by its position and its indentation. -/
structure Level where
  index : Nat
  indent : Nat
deriving DecidableEq, Repr

/-- The parents of entries with the given indentations, the first of them at position `index`.
The stack holds the earlier entries that can still be parents, the latest first. -/
def parentsFrom (index : Nat) (stack : List Level) : List Nat → List (Option Nat)
  | [] => []
  | indent :: rest =>
    let stack := stack.dropWhile fun level => indent ≤ level.indent
    stack.head?.map Level.index :: parentsFrom (index + 1) (⟨index, indent⟩ :: stack) rest

/-- For each indentation the position of the nearest one before it that is smaller. -/
def parents (indents : List Nat) : List (Option Nat) :=
  parentsFrom 0 [] indents

theorem length_parentsFrom (index : Nat) (stack : List Level) (indents : List Nat) :
    (parentsFrom index stack indents).length = indents.length := by
  induction indents generalizing index stack with
  | nil => rfl
  | cons indent rest ih => simp [parentsFrom, ih]

/-- Every entry has its answer. -/
theorem length_parents (indents : List Nat) : (parents indents).length = indents.length :=
  length_parentsFrom 0 [] indents

end Daybook.Timeline
