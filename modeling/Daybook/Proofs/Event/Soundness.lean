import Daybook.Proofs.Event.Canonical
import Daybook.Proofs.Line.Tokens
import Daybook.Proofs.Log.Reading

/-!
# Events that were read are canonical

Whatever a line looked like, the event that it makes is canonical: what the line spells in one
of many ways is kept in the one way that a canonical line spells it.

* `Log.readLine_sound` : the event of a line is canonical.
-/

namespace Daybook

open Text

/-! ## Timestamps -/

/-- A log has no leap seconds. -/
theorem second_lt_of_timeOfText {cs : List Char} {t : TimeOfDay} (h : timeOfText cs = .ok t) :
    t.second < 60 := by
  -- three parts are read, and then each is compared with its limit
  obtain ⟨hour, -, h⟩ := bind_eq_ok.mp h
  obtain ⟨minute, -, h⟩ := bind_eq_ok.mp h
  obtain ⟨second, -, h⟩ := bind_eq_ok.mp h
  obtain ⟨hour, -, h⟩ := bind_eq_ok.mp h
  obtain ⟨minute, -, h⟩ := bind_eq_ok.mp h
  obtain ⟨⟨second, hsecond⟩, -, h⟩ := bind_eq_ok.mp h
  obtain rfl := Except.ok.inj h
  exact Nat.lt_succ_of_le hsecond

/-- A timestamp of a line denotes a canonical moment, when the date that it may leave out has a
four-digit year. -/
theorem canonical_of_moment {clock : Clock} (hclock : clock.date.FourDigit) {cs : List Char}
    (hcs : IsStampText cs) {t : DateTime} {dated : Bool}
    (h : clock.moment cs = .ok (t, dated)) : t.Canonical := by
  obtain ⟨⟨date, time⟩, hparts, heq⟩ := bind_eq_ok.mp h
  obtain ⟨rfl, -⟩ := Prod.mk.inj (Except.ok.inj heq)
  obtain ⟨timeText, hword, hcs⟩ := hcs
  have hspace : ∀ {w : List Char}, IsWord w → ' ' ∉ w := fun hw hmem =>
    absurd (hw.2 ' ' hmem) (by decide)
  rcases hcs with rfl | ⟨dateText, hshape, hdate, rfl⟩
  · -- a time alone takes the date of the clock
    rw [timestampParts, splitAt?_eq_none (hspace hword)] at hparts
    obtain ⟨time', htime, heq⟩ := bind_eq_ok.mp hparts
    obtain ⟨rfl, rfl⟩ := Prod.mk.inj (Except.ok.inj heq)
    exact ⟨hclock, second_lt_of_timeOfText htime⟩
  -- a date of its own has the shape of a date, and so a four-digit year
  · rw [timestampParts, splitAt?_append (hspace hdate)] at hparts
    simp only at hparts
    split at hparts
    · simp at hparts
    · next date' hread =>
      obtain ⟨time', htime, heq⟩ := bind_eq_ok.mp hparts
      obtain ⟨rfl, rfl⟩ := Prod.mk.inj (Except.ok.inj heq)
      exact ⟨fourDigit_of_isDateShape hshape hread, second_lt_of_timeOfText htime⟩

/-! ## Remarks -/

theorem isRemark_of_remarkOf {text r : String} (htrim : trim text.toList = text.toList)
    (hfeed : '\n' ∉ text.toList) (h : remarkOf text = some r) : IsRemark r.toList := by
  unfold remarkOf at h
  split at h
  · simp at h
  · next hne =>
    obtain rfl := Option.some.inj h
    exact ⟨fun hnil => hne (String.toList_inj.mp hnil), htrim, hfeed⟩

theorem isRemark_of_stopRemark {stop : Stop} {tokens : List Token} {remark : Option String}
    (htokens : ∀ t ∈ tokens, t.mark.Sound) (h : stopRemark stop none tokens = .ok remark) :
    ∀ r ∈ remark, IsRemark r.toList := by
  obtain ⟨hkinds, rfl⟩ := stopRemark_eq_ok_iff.mp h
  cases hlast : tokens.getLast? with
  | none => simp
  | some t =>
    have hmem := List.mem_of_getLast? hlast
    have hsound := htokens t hmem
    rw [Mark.Sound, show t.mark.1 = .remark from hkinds t hmem] at hsound
    exact fun r hr => isRemark_of_remarkOf hsound.1 hsound.2 hr

/-! ## Entries -/

theorem resume_bounds {text : String} {n : Nat} (h : resumeOfText text = .ok (.numbered n)) :
    0 < n ∧ n < indexBound := by
  unfold resumeOfText at h
  split at h
  · simp at h
  · split at h
    · simp at h
    · split at h
      · simp at h
      · next m hzero hread =>
        obtain rfl : m = n := by simpa using h
        have hpos : m ≠ 0 := fun hm => hzero (by rw [hm])
        exact ⟨Nat.pos_of_ne_zero hpos, lt_of_readNat? hread⟩
      · simp at h

theorem suffix_ne_working {text : String} {s : State} (h : State.ofSuffix? text = some s) :
    s ≠ .working := by
  unfold State.ofSuffix? at h
  rintro rfl
  split at h
  · simp at h
  · split at h
    · simp at h
    · split at h <;> simp at h

/-- What a sound token adds keeps an entry canonical. -/
theorem Entry.Canonical.adds {e after : Entry} (h : e.Canonical) {kind : TokenKind} {text : String}
    (hsound : Mark.Sound (kind, text.toList)) {repeated : List String}
    (hadds : e.Adds kind text after repeated) : after.Canonical := by
  -- whatever is added, the token says what its field may hold
  cases hadds with
  | description => exact { h with description := hsound }
  | project _ =>
    refine { h with project := fun p hp => ?_ }
    obtain rfl := Option.some.inj hp
    exact hsound
  | oldTag _ => exact h
  | newTag hnew =>
    refine { h with tags := ?_, nodup := nodup_snoc h.nodup hnew }
    intro tag htag
    rcases List.mem_append.mp htag with htag | htag
    · exact h.tags tag htag
    · obtain rfl := List.mem_singleton.mp htag
      exact hsound
  | estimate _ hn =>
    refine { h with estimate := fun n hn' => ?_ }
    obtain rfl := Option.some.inj hn'
    exact Duration.parse_bounds hn
  | duration _ hn =>
    refine { h with duration := fun n hn' => ?_ }
    obtain rfl := Option.some.inj hn'
    exact Duration.parse_bounds hn
  | suffix _ hs =>
    refine { h with suffix := fun s hs' => ?_ }
    obtain rfl := Option.some.inj hs'
    exact suffix_ne_working hs
  | resume _ hr =>
    refine { h with resume := fun n hn => ?_ }
    obtain rfl := Option.some.inj hn
    exact resume_bounds hr
  | remark => exact { h with remark := fun r hr => isRemark_of_remarkOf hsound.1 hsound.2 hr }

/-- Sound tokens make a canonical entry of a canonical one. -/
theorem Entry.Canonical.addAll {e after : Entry} (h : e.Canonical) {tokens : List Token}
    (htokens : ∀ t ∈ tokens, t.mark.Sound) {warnings : List Warning}
    (hadd : e.addAll tokens = .ok (after, warnings)) : after.Canonical := by
  induction tokens generalizing e warnings with
  | nil =>
    obtain ⟨rfl, -⟩ := Prod.mk.inj (Except.ok.inj hadd)
    exact h
  | cons t ts ih =>
    obtain ⟨next, first, rest, hfirst, hrest, -⟩ := Entry.addAll_cons_eq_ok_iff.mp hadd
    obtain ⟨repeated, -, hadds⟩ := Entry.adds_of_add hfirst
    -- the entry after the first token is canonical again
    have hnext := h.adds (htokens t List.mem_cons_self) hadds
    exact ih hnext (fun u hu => htokens u (List.mem_cons_of_mem _ hu)) hrest

/-! ## Events -/

theorem Entry.canonical_blank {t : DateTime} (ht : t.Canonical) (indent line : Nat) :
    Entry.Canonical { timestamp := t, description := "", indent, line } where
  timestamp := ht
  description := ⟨[], by simp, rfl⟩
  project := by simp
  tags := by simp
  nodup := List.nodup_nil
  estimate := by simp
  duration := by simp
  suffix := by simp
  resume := by simp
  remark := by simp

/-- Sound tokens make a canonical event. -/
theorem MakesEvent.canonical {t : DateTime} (ht : t.Canonical) {tokens : List Token}
    (htokens : ∀ u ∈ tokens, u.mark.Sound) {indent line : Nat} {event : Event}
    {warnings : List Warning} (h : MakesEvent t indent line tokens event warnings) :
    event.Canonical := by
  cases h with
  | stop hfind _ hremark =>
    -- the tokens on both sides of the stop are tokens of the line
    obtain ⟨rfl, -⟩ := eq_of_findStop? hfind
    obtain ⟨hbefore, hafter⟩ := List.forall_mem_append.mp htokens
    have haround := List.forall_mem_append.mpr ⟨hbefore, (List.forall_mem_cons.mp hafter).2⟩
    exact ⟨ht, isRemark_of_stopRemark haround hremark⟩
  | entry _ hadd hwork =>
    exact ⟨(Entry.canonical_blank ht indent line).addAll htokens hadd, by simp [hwork]⟩

/-! ## Lines -/

/-- The moment of a line with a timestamp is canonical, and its other tokens are sound. -/
theorem HasStamp.canonical {clock : Clock} (hclock : clock.date.FourDigit) {line : List Char}
    (hfeed : '\n' ∉ line) {stamp : Option Date × TimeOfDay} {rest : List Token}
    (h : HasStamp line stamp rest) :
    (clock.complete stamp).Canonical ∧ ∀ t ∈ rest, t.mark.Sound := by
  obtain ⟨l, first, hread, htokens, hparts⟩ := h
  obtain ⟨first', rest', htokens', -, htext, hrest⟩ := Line.ofText_shape hfeed hread
  obtain ⟨rfl, rfl⟩ := List.cons.inj (htokens.symm.trans htokens')
  have hmoment := clock.moment_eq_map first.text.toList
  rw [hparts] at hmoment
  exact ⟨canonical_of_moment hclock htext hmoment, hrest⟩

/-- The event of a line is canonical, and the date for the next line keeps a four-digit year. -/
theorem Log.readLine_sound {clock : Clock} (hclock : clock.date.FourDigit) (number : Nat)
    {line : List Char} (hfeed : '\n' ∉ line) :
    (clock.pass line).date.FourDigit ∧
      ∀ event ∈ (readLine clock number line).2.events, event.Canonical := by
  refine ⟨?_, fun event hmem => ?_⟩
  · cases hstamp : stampOf? line with
    | none => rwa [Clock.pass_of_none hstamp]
    | some stamp =>
      obtain ⟨rest, hrest⟩ := stampOf?_eq_some_iff.mp hstamp
      rw [Clock.pass_of_some hstamp]
      exact (hrest.canonical hclock hfeed).1.fourDigit
  · obtain ⟨stamp, rest, warnings, hstamp, hmakes, -⟩ :=
      (readLine_spec _ _ _).2.of_mem_events hmem
    obtain ⟨ht, hrest⟩ := hstamp.canonical hclock hfeed
    exact hmakes.canonical ht hrest

end Daybook
