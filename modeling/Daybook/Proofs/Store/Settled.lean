import Daybook.Proofs.Store.Paused
import Daybook.Proofs.Timeline.Settled

/-!
# Links against a store, made twice

A store finds the paused session that started last. Among the sessions that a filter admits this
one is still the last, so it is found again by what it is; and the links that were made against
a store stay when they are made against it once more.

* `narrows_archive` : the session that is found by no field is found by its fields.
* `resolve_resolve_after` : links are made once and for all.
-/

namespace Daybook.Store

open Timeline

variable {s : Store} {f : Filter} {r : Row}

/-! ## The work that is found -/

/-- The last of all paused rows is the last of those that a filter admits, if it is one of
them. -/
theorem getLast?_byStart_pausedRows (ho : s.Ordered)
    (hlast : (byStart (s.pausedRows Filter.any)).getLast? = some r)
    (hf : f.admits r.description r.project r.tags = true) :
    (byStart (s.pausedRows f)).getLast? = some r := by
  obtain ⟨hrow, hpaused, -⟩ := mem_pausedRows_iff.mp (mem_of_getLast?_byStart hlast)
  have hmem : r ∈ s.pausedRows f := mem_pausedRows_iff.mpr ⟨hrow, hpaused, hf⟩
  cases hfound : (byStart (s.pausedRows f)).getLast? with
  | none =>
    have hnil := List.getLast?_eq_none_iff.mp hfound
    have hsome := mem_byStart_iff.mpr hmem
    simp [hnil] at hsome
  | some t =>
    obtain ⟨htrow, htpaused, -⟩ := mem_pausedRows_iff.mp (mem_of_getLast?_byStart hfound)
    have htany : t ∈ s.pausedRows Filter.any := mem_pausedRows_iff.mpr ⟨htrow, htpaused, rfl⟩
    -- neither of the two rows is after the other, so they are the same one
    have hle := pairLE_of_getLast?_byStart (increasing_pausedRows ho f) hfound r hmem
    have hge := pairLE_of_getLast?_byStart (increasing_pausedRows ho _) hlast t htany
    have hid : t.id = r.id := hge.antisymm hle
    rw [ho.eq_of_id htrow hrow (congrArg SessionId.value hid)]

/-- The paused session that is found when any will do is also found by what it is. -/
theorem narrows_archive (ho : s.Ordered) : Narrows s.archive := by
  intro f session hlatest hf
  have hlatest : s.latestPaused Filter.any = .ok (some session) := hlatest
  cases hlast : (byStart (s.pausedRows Filter.any)).getLast? with
  | none =>
    rw [latestPaused_of_none hlast] at hlatest
    simp at hlatest
  | some r =>
    rw [latestPaused_of_some hlast] at hlatest
    obtain ⟨found, hfound, heq⟩ := bind_eq_ok.mp hlatest
    obtain rfl := Option.some.inj (Except.ok.inj heq)
    rw [admits_of_session_ok hfound] at hf
    have hsame := latestPaused_of_some (getLast?_byStart_pausedRows ho hlast hf)
    exact hsame.trans hlatest

/-- Where the rows stand in the order of their starts, the last one is found without sorting. -/
theorem archive_of_sorted (h : s.rows.Pairwise fun a b => a.start ≤ b.start) :
    s.archive =
      { latestPaused := fun f =>
          match (s.pausedRows f).getLast? with
          | none => .ok none
          | some r => r.session >>= fun session => .ok (some session)
        chainRoot := s.chainRoot } := by
  have hlatest : ∀ f, s.latestPaused f =
      match (s.pausedRows f).getLast? with
      | none => .ok none
      | some r => r.session >>= fun session => .ok (some session) := by
    intro f
    have hsorted : byStart (s.pausedRows f) = s.pausedRows f :=
      List.mergeSort_of_pairwise ((h.filter _).imp decide_eq_true)
    split
    · next hnone => exact latestPaused_of_none (hsorted.symm ▸ hnone)
    · next r hsome => exact latestPaused_of_some (hsorted.symm ▸ hsome)
  rw [archive, funext hlatest]

/-! ## Links made twice -/

/-- Against a store that operations reach, the links of a log that were made can be made again, and
they, the descriptions, the projects and the tags are what they were. That they can be made at all
takes no more than that every row can be read. -/
theorem resolve_resolve_after (operations : List Operation) (events : List Event) :
    (∀ spans, resolve (after operations).archive (ofEvents events) = .ok spans →
      resolve (after operations).archive spans = .ok spans) ∧
    ((after operations).Legible →
      ∃ spans, resolve (after operations).archive (ofEvents events) = .ok spans) := by
  have ho := (sound_after operations).nested.ordered
  refine ⟨fun spans h => resolve_settled (narrows_archive ho) h, ?_⟩
  intro h
  exact exists_resolve h.answering_archive (ofEvents events)

/-- A plan for a book that was paused, gone on with and paused again. -/
def plans : List Operation :=
  let plan (minutes : Nat) (continues : Option SessionId) : Operation :=
    .insert { description := "Plan", project := some "book", tags := ["text"],
              start := teaTime.addMinutes minutes, state := .paused, continues }
  [plan 0 none, plan 30 (some (numberAt 0 0))]

/-- An entry that only says to go on, a report that is paused, and one more such entry. -/
def evening : List Event :=
  let entry (minutes : Nat) (description : String) (resume : Option Resume) : Event :=
    .entry { timestamp := teaTime.addMinutes minutes, description, resume,
             suffix := some .paused, indent := 0, line := minutes }
  [entry 60 "" (some .latest), entry 70 "Report" none, entry 80 "" (some .latest)]

/-- The first entry goes on with the plan, where the first plan began, and takes over what the plan
is; the last one goes on with the report. The second time both ask for work by its fields. -/
theorem resolve_resolve_after_plans :
    (after plans).Legible ∧
    ∃ spans, resolve (after plans).archive (ofEvents evening) = .ok spans ∧
      resolve (after plans).archive spans = .ok spans ∧
      spans.map (fun s => (s.entry.description, s.entry.project, s.entry.tags, s.continues)) =
        [("Plan", some "book", ["text"], some (.session (numberAt 0 0))),
          ("Report", none, [], none), ("Report", none, [], some (.entry 1))] := by
  have hlegible : (after plans).Legible := by decide +kernel
  obtain ⟨hagain, hexists⟩ := resolve_resolve_after plans evening
  obtain ⟨spans, hspans⟩ := hexists hlegible
  refine ⟨hlegible, spans, hspans, hagain spans hspans, ?_⟩
  have hsorted : (after plans).rows.Pairwise fun a b => a.start ≤ b.start := by decide +kernel
  have hrun : (resolve (after plans).archive (ofEvents evening)).toOption.map
      (List.map fun s => (s.entry.description, s.entry.project, s.entry.tags, s.continues)) =
        some [("Plan", some "book", ["text"], some (.session (numberAt 0 0))),
          ("Report", none, [], none), ("Report", none, [], some (.entry 1))] := by
    rw [archive_of_sorted hsorted]
    decide +kernel
  rw [hspans] at hrun
  exact Option.some.inj hrun

end Daybook.Store
