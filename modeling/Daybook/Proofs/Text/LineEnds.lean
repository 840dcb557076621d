import Daybook.Proofs.Text.Words
import Mathlib.Data.List.Forall2

/-!
# The ends of lines

Where a line of a text ends, said of the text alone, and what the lines become when every line
feed gets a carriage return before it.

* `hasLines_lines` : the reader takes a text apart at the ends of its lines.
* `forall₂_lines_withReturns` : with carriage returns the lines are the same, up to a carriage
  return that a line ended with before.
-/

namespace Daybook.Text

/-! ## Lines -/

/-- The lines of a text. A line ends at the first line feed, and a carriage return right before
that is part of the end. What follows the last line feed is a line if it is not empty. -/
inductive HasLines : List Char → List (List Char) → Prop where
  | empty : HasLines [] []
  | unended {line : List Char} (hne : line ≠ []) (hfeed : '\n' ∉ line) : HasLines line [line]
  | feed {line rest : List Char} {ls : List (List Char)} (hfeed : '\n' ∉ line)
      (hreturn : line.getLast? ≠ some '\r') (h : HasLines rest ls) :
      HasLines (line ++ '\n' :: rest) (line :: ls)
  | returnFeed {line rest : List Char} {ls : List (List Char)} (hfeed : '\n' ∉ line)
      (h : HasLines rest ls) : HasLines (line ++ '\r' :: '\n' :: rest) (line :: ls)

/-- A character before the first line is one of that line, unless it is part of a line end. -/
theorem HasLines.cons {cs line : List Char} {ls : List (List Char)} (h : HasLines cs (line :: ls))
    {c : Char} (hc : c ≠ '\n') (hreturn : ∀ ds, c = '\r' → cs ≠ '\n' :: ds) :
    HasLines (c :: cs) ((c :: line) :: ls) := by
  have hcons : ∀ {line : List Char}, '\n' ∉ line → '\n' ∉ c :: line := fun hfeed hmem =>
    (List.mem_cons.mp hmem).elim (fun heq => hc heq.symm) hfeed
  cases h with
  | unended hne hfeed => exact .unended (List.cons_ne_nil _ _) (hcons hfeed)
  | returnFeed hfeed h => exact .returnFeed (hcons hfeed) h
  | @feed _ rest _ hfeed hlast h =>
    refine .feed (hcons hfeed) ?_ h
    cases line with
    | nil => exact fun heq => hreturn rest (Option.some.inj heq) rfl
    | cons d ds => rwa [List.getLast?_cons_cons]

/-- The reader takes a text apart at the ends of its lines. -/
theorem hasLines_lines (cs : List Char) : HasLines cs (lines cs) := by
  fun_induction lines cs with
  | case1 => exact .empty
  | case2 cs ih => exact @HasLines.returnFeed [] cs _ List.not_mem_nil ih
  | case3 cs ih => exact @HasLines.feed [] cs _ List.not_mem_nil (by simp) ih
  | case4 c cs hreturn hc hnil ih =>
    -- no line follows, so the character is all there is
    rw [hnil] at ih
    cases ih
    exact .unended (List.cons_ne_nil _ _) (by simpa [eq_comm] using hc)
  | case5 c cs hreturn hc first rest hcons ih =>
    rw [hcons] at ih
    exact ih.cons hc hreturn

/-! ## Carriage returns -/

/-- The text with a carriage return before every line feed. -/
def withReturns (cs : List Char) : List Char :=
  cs.flatMap fun c => if c = '\n' then ['\r', '\n'] else [c]

theorem withReturns_cons_of_ne {c : Char} (hc : c ≠ '\n') (cs : List Char) :
    withReturns (c :: cs) = c :: withReturns cs := by
  simp [withReturns, hc]

theorem withReturns_feed (cs : List Char) :
    withReturns ('\n' :: cs) = '\r' :: '\n' :: withReturns cs := by
  simp [withReturns]

/-- A line feed never stands first, since a carriage return stands before it. -/
theorem withReturns_ne_feed (cs ds : List Char) : withReturns cs ≠ '\n' :: ds := by
  cases cs with
  | nil => simp [withReturns]
  | cons c cs =>
    by_cases hc : c = '\n'
    · subst hc
      simp [withReturns_feed]
    · simp [withReturns_cons_of_ne hc, hc]

/-- A line that may have got a carriage return at its end. -/
def IsReturned (line other : List Char) : Prop :=
  other = line ∨ other = line ++ ['\r']

theorem IsReturned.cons {line other : List Char} (h : IsReturned line other) (c : Char) :
    IsReturned (c :: line) (c :: other) := by
  rcases h with rfl | rfl
  · exact .inl rfl
  · exact .inr rfl

/-- A carriage return before a line feed belongs to the line end, so a text with more of them has
the same lines, up to the carriage returns that were there before. -/
theorem forall₂_lines_withReturns (cs : List Char) :
    List.Forall₂ IsReturned (lines cs) (lines (withReturns cs)) := by
  fun_induction lines cs with
  | case1 => exact .nil
  | case2 cs ih =>
    have hlines : lines ('\r' :: '\r' :: '\n' :: withReturns cs) =
        ['\r'] :: lines (withReturns cs) := rfl
    rw [withReturns_cons_of_ne (by decide), withReturns_feed, hlines]
    exact .cons (.inr rfl) ih
  | case3 cs ih =>
    have hlines : lines ('\r' :: '\n' :: withReturns cs) = [] :: lines (withReturns cs) := rfl
    rw [withReturns_feed, hlines]
    exact .cons (.inl rfl) ih
  | case4 c cs _ hc hnil ih =>
    rw [hnil] at ih
    rw [withReturns_cons_of_ne hc, lines.eq_4 _ _ (fun ds _ => withReturns_ne_feed cs ds) hc]
    generalize lines (withReturns cs) = ls at ih ⊢
    cases ih
    exact .cons (.inl rfl) .nil
  | case5 c cs _ hc first rest hcons ih =>
    rw [hcons] at ih
    rw [withReturns_cons_of_ne hc, lines.eq_4 _ _ (fun ds _ => withReturns_ne_feed cs ds) hc]
    generalize lines (withReturns cs) = ls at ih ⊢
    cases ih with
    | cons hfirst hrest => exact .cons (hfirst.cons c) hrest

end Daybook.Text
