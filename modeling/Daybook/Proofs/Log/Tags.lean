import Daybook.Proofs.Log.Reading

/-!
# The tags of an entry

A tag that a line repeats is not added a second time, so the tags of an entry are without
repeats, whatever the log and whatever the date of its first line.

* `Log.nodup_tags` : no entry of a log has a tag twice.
-/

namespace Daybook

theorem MakesEvent.nodup_tags {timestamp : DateTime} {indent number : Nat} {tokens : List Token}
    {e : Entry} {warnings : List Warning}
    (h : MakesEvent timestamp indent number tokens (.entry e) warnings) : e.tags.Nodup := by
  cases h with
  | entry _ hadd _ =>
    obtain ⟨-, repeated, -, hgathers⟩ := (Entry.gathers_blank timestamp indent number).addAll hadd
    have htags : e.tags = (textsOf .tag tokens).eraseDups := hgathers.fields .tag
    rw [htags]
    exact nodup_eraseDups _

/-- No entry of a log has a tag twice. -/
theorem Log.nodup_tags (base : Date) (text : String) :
    ∀ e, Event.entry e ∈ (ofText base text).events → e.tags.Nodup := by
  intro e hmem
  obtain ⟨before, line, after, -, hmem⟩ := (mem_readLines_iff Log.events rfl fun _ _ => rfl).mp hmem
  obtain ⟨stamp, rest, warnings, -, hmakes, -⟩ := (readLine_spec _ _ _).2.of_mem_events hmem
  exact hmakes.nodup_tags

end Daybook
