import Daybook.Proofs.Timeline.Passes

/-!
# The work that is gone on with

What a marker goes on with, said of the finished spans of a log alone. A number names a span; the
other markers name the latest paused work that fits, which is looked for in the log first and
only then in the archive.

* `resolve_resumed` : what every span of a log goes on with.
-/

namespace Daybook.Timeline

variable {ε : Type}

/-! ## The rules -/

/-- The span at position `k` is the latest before position `i` that is paused and admitted. -/
structure IsLatestPaused (spans : List Span) (i : Nat) (f : Filter) (k : Nat) (s : Span) :
    Prop where
  before : k < i
  found : spans[k]? = some s
  paused : s.state = .paused
  admitted : f.admits s.entry.description s.entry.project s.entry.tags = true
  latest : ∀ j t, k < j → j < i → spans[j]? = some t → t.state = .paused →
    f.admits t.entry.description t.entry.project t.entry.tags = false

/-- The paused work that a filter finds for the span at position `i`: the latest of the log, with
the start that it leads to, or else what the archive answers with, at the start of its chain. -/
inductive Finds (archive : Archive ε) (spans : List Span) (i : Nat) (f : Filter) :
    Option Paused → Prop where
  | inLog {k : Nat} {s : Span} (h : IsLatestPaused spans i f k s) :
      Finds archive spans i f
        (some ⟨s.chainStart k, s.entry.description, s.entry.project, s.entry.tags⟩)
  | inArchive {session : Session} {root : Option Session}
      (hlog : ∀ k s, ¬ IsLatestPaused spans i f k s)
      (hlatest : archive.latestPaused f = .ok (some session))
      (hroot : archive.chainRoot session.id = .ok root) :
      Finds archive spans i f
        (some ⟨.session ((root.map Session.id).getD session.id), session.description,
          session.project, session.tags⟩)
  | nowhere (hlog : ∀ k s, ¬ IsLatestPaused spans i f k s)
      (hlatest : archive.latestPaused f = .ok none) :
      Finds archive spans i f none

/-- The link that a number stands for, at position `i`: to the start that the span with this
number leads to, if that span stands earlier and is paused. -/
inductive Names (spans : List Span) (i n : Nat) : Option Link → Prop where
  | paused {k : Nat} {s : Span} (hn : n = k + 1) (hk : k < i) (hs : spans[k]? = some s)
      (hpaused : s.state = .paused) : Names spans i n (some (s.chainStart k))
  | nothing (h : ∀ k s, n = k + 1 → k < i → spans[k]? = some s → s.state ≠ .paused) :
      Names spans i n none

/-- The entry with what it takes over from the work that it goes on with. -/
def takeOver (e : Entry) : Option Paused → Entry
  | none => e
  | some work =>
    { e with description := work.description, project := work.project, tags := work.tags }

/-- The span `s` at position `i` of the finished spans is the span `t` of the timeline with the
link that its marker calls for. Only an entry that says nothing but to go on takes over what the
work is; all else is as it was. -/
structure Resumed (archive : Archive ε) (spans : List Span) (i : Nat) (t s : Span) : Prop where
  unmarked : t.entry.resume = none → s = { t with continues := none }
  numbered : ∀ n, t.entry.resume = some (.numbered n) →
    ∃ link, Names spans i n link ∧ s = { t with continues := link }
  previous : t.entry.resume = some .previous →
    ∃ work, Finds archive spans i Filter.any work ∧
      s = { t with continues := work.map Paused.link }
  described : t.entry.resume = some .latest → t.entry.isBare = false →
    ∃ work, Finds archive spans i (Filter.ofEntry t.entry) work ∧
      s = { t with continues := work.map Paused.link }
  bare : t.entry.resume = some .latest → t.entry.isBare = true →
    ∃ work, Finds archive spans i Filter.any work ∧
      s = { t with entry := takeOver t.entry work, continues := work.map Paused.link }

/-! ## Entries that ask for work -/

/-- The entry asks for paused work by its fields, or for the latest. -/
def Asks (s : Span) : Prop :=
  s.entry.resume = some .latest ∨ s.entry.resume = some .previous

instance (s : Span) : Decidable (Asks s) := inferInstanceAs (Decidable (_ ∨ _))

theorem resumeFilter_eq_none_iff {s : Span} : resumeFilter s.entry = none ↔ ¬ Asks s := by
  unfold resumeFilter Asks
  split
  · next h => simp [h]
  · next h => simp [h]
  · next hlatest hprevious =>
    refine iff_of_true rfl ?_
    rintro (h | h)
    · exact hlatest h
    · exact hprevious h

/-! ## Before the last pass -/

/-- The link by a number is the one that the number stands for in the timeline. -/
theorem names_ofEvents {events : List Event} {i n : Nat} {t : Span}
    (h : (ofEvents events)[i]? = some t) (hn : t.entry.resume = some (.numbered n)) :
    Names (ofEvents events) i n t.continues := by
  rw [continues_ofEvents h, numberedLink, hn]
  cases n with
  | zero => exact .nothing fun k s hk => by omega
  | succ k =>
    have htake : ((ofEvents events).take i)[k]? =
        if k < i then (ofEvents events)[k]? else none := List.getElem?_take
    simp only
    split
    · next u hu =>
      rw [htake, Option.ite_none_right_eq_some] at hu
      split
      · next hpaused => exact .paused rfl hu.1 hu.2 hpaused
      · next hpaused =>
        refine .nothing fun j s hj _ hs => ?_
        obtain rfl : k = j := by omega
        obtain rfl : u = s := Option.some.inj (hu.2.symm.trans hs)
        exact hpaused
    · next hu =>
      refine .nothing fun j s hj hji hs => ?_
      obtain rfl : k = j := by omega
      rw [htake, if_pos hji, hs] at hu
      simp at hu

/-- The work that is found among the spans before a position is that of the latest paused one. -/
theorem pausedAmong_eq_some {f : Filter} {spans : List Span} {i : Nat} {work : Paused}
    (h : pausedAmong f (spans.take i) = some work) :
    ∃ k s, IsLatestPaused spans i f k s ∧
      work = ⟨s.chainStart k, s.entry.description, s.entry.project, s.entry.tags⟩ := by
  obtain ⟨⟨k, s⟩, hlast, rfl⟩ := Option.map_eq_some_iff.mp h
  obtain ⟨-, hs, hp⟩ := lastWith_eq_some hlast
  obtain ⟨hpaused, hadmitted⟩ := isPausedWork_eq_true_iff.mp hp
  rw [Nat.sub_zero, List.getElem?_take, Option.ite_none_right_eq_some] at hs
  refine ⟨k, s, ⟨hs.1, hs.2, hpaused, hadmitted, ?_⟩, rfl⟩
  intro j t hkj hji ht hstate
  have hfalse := lastWith_latest hlast j t (by omega) (by rw [List.getElem?_take_of_lt hji, ht])
  exact isPausedWork_eq_false_iff.mp hfalse hstate

theorem not_isLatestPaused_of_pausedAmong {f : Filter} {spans : List Span} {i : Nat}
    (h : pausedAmong f (spans.take i) = none) : ∀ k s, ¬ IsLatestPaused spans i f k s := by
  intro k s hlatest
  have hnone := lastWith_eq_none (Option.map_eq_none_iff.mp h) s
    (List.mem_of_getElem? (by rw [List.getElem?_take_of_lt hlatest.before, hlatest.found]))
  rw [isPausedWork_eq_true_iff.mpr ⟨hlatest.paused, hlatest.admitted⟩] at hnone
  exact Bool.noConfusion hnone

/-! ## The finished spans -/

section Finished

variable {archive : Archive ε} {events : List Event} {linked : List Span}

/-- A finished span is the one that the second pass made, with its link replaced. -/
theorem getElem?_finished (h : resolveFrom archive [] (ofEvents events) = .ok linked) (i : Nat) :
    (linkToStarts [] linked)[i]? = linked[i]?.map fun s =>
      { s with continues := startLink (linkToStarts [] linked) s } := by
  have hnumbered : Linked IsPaused (fun _ => True) ([] ++ ofEvents events) :=
    (linked_ofEvents events).mono fun _ hs => hs.1
  -- whatever sessions the archive answers with, links within the log are to earlier spans
  obtain ⟨-, hlinks⟩ := resolveFrom_ok (answers_session archive) hnumbered h
  apply getElem?_linkToStarts
  intro j s k hs hk
  rw [List.length_nil, Nat.zero_add]
  exact (Linked.target hlinks hs hk).1

/-- The second pass keeps the state, and it keeps the link that an entry has by a number. -/
theorem getElem?_linked (h : resolveFrom archive [] (ofEvents events) = .ok linked) {k : Nat}
    {u : Span} (hu : (ofEvents events)[k]? = some u) :
    ∃ s, linked[k]? = some s ∧ s.state = u.state ∧ (u.continues = none ∨ s = u) := by
  obtain ⟨hlength, hsteps⟩ := resolveFrom_eq_ok_iff.mp h
  have hlt := (List.getElem?_eq_some_iff.mp hu).1
  rw [← hlength] at hlt
  have hs := List.getElem?_eq_getElem hlt
  generalize linked[k] = s at hs
  have hstep := hsteps k u s hu hs
  refine ⟨s, hs, ?_⟩
  cases hf : resumeFilter u.entry with
  | none =>
    obtain rfl := resolveSpan_of_resumeFilter_none hf hstep
    exact ⟨rfl, .inr rfl⟩
  | some f =>
    -- an entry that names its work by its fields has no number
    have hnone : u.continues = none :=
      continues_eq_none_of_ofEvents hu fun n hn => by simp [resumeFilter, hn] at hf
    rcases resolveSpan_ok_cases hf hstep with ⟨work, -, rfl⟩ | ⟨-, ⟨work, -, rfl⟩ | ⟨-, rfl⟩⟩
    · exact ⟨rfl, .inl hnone⟩
    · exact ⟨rfl, .inl hnone⟩
    · exact ⟨rfl, .inl hnone⟩

/-- The latest paused span is at the same position before and after the last pass. -/
theorem isLatestPaused_finished (h : resolveFrom archive [] (ofEvents events) = .ok linked)
    {i k : Nat} {f : Filter} {s : Span} (hs : IsLatestPaused linked i f k s) :
    IsLatestPaused (linkToStarts [] linked) i f k
      { s with continues := startLink (linkToStarts [] linked) s } where
  before := hs.before
  found := by rw [getElem?_finished h, hs.found, Option.map_some]
  paused := hs.paused
  admitted := hs.admitted
  latest := by
    intro j t hkj hji ht hstate
    rw [getElem?_finished h] at ht
    obtain ⟨u, hu, rfl⟩ := Option.map_eq_some_iff.mp ht
    exact hs.latest j u hkj hji hu hstate

theorem exists_isLatestPaused (h : resolveFrom archive [] (ofEvents events) = .ok linked)
    {i k : Nat} {f : Filter} {s : Span} (hs : IsLatestPaused (linkToStarts [] linked) i f k s) :
    ∃ u, IsLatestPaused linked i f k u := by
  have hfound := hs.found
  rw [getElem?_finished h] at hfound
  obtain ⟨u, hu, rfl⟩ := Option.map_eq_some_iff.mp hfound
  refine ⟨u, hs.before, hu, hs.paused, hs.admitted, ?_⟩
  intro j t hkj hji ht hstate
  exact hs.latest j { t with continues := startLink (linkToStarts [] linked) t } hkj hji
    (by rw [getElem?_finished h, ht, Option.map_some]) hstate

/-- What the second pass finds for an entry is what the rules find among the finished spans. -/
theorem exists_finds (h : resolveFrom archive [] (ofEvents events) = .ok linked) {i : Nat}
    {t s : Span} (ht : (ofEvents events)[i]? = some t) (hs : linked[i]? = some s) {f : Filter}
    (hf : resumeFilter t.entry = some f) :
    ∃ work, Finds archive (linkToStarts [] linked) i f work ∧
      { s with continues := startLink (linkToStarts [] linked) s } =
        { t with
          entry := if t.entry.resume = some .latest ∧ t.entry.isBare then takeOver t.entry work
            else t.entry
          continues := work.map Paused.link } := by
  have hstep := (resolveFrom_eq_ok_iff.mp h).2 i t s ht hs
  rw [List.nil_append] at hstep
  rcases resolveSpan_ok_cases hf hstep with ⟨work, hwork, rfl⟩ | ⟨hnone, hcase⟩
  · -- found in the log: the link is replaced by that of the span found
    obtain ⟨k, u, hu, rfl⟩ := pausedAmong_eq_some hwork
    have hv := isLatestPaused_finished h hu
    refine ⟨_, .inLog hv, ?_⟩
    rw [startLink_of_chainStart (s := goOn t _) hv.found rfl rfl]
    rfl
  · have hlog : ∀ k s, ¬ IsLatestPaused (linkToStarts [] linked) i f k s := by
      intro k s hk
      obtain ⟨u, hu⟩ := exists_isLatestPaused h hk
      exact not_isLatestPaused_of_pausedAmong hnone k u hu
    rcases hcase with ⟨work, hwork, rfl⟩ | ⟨hwork, rfl⟩
    · rcases pausedInArchive_ok_cases hwork with ⟨-, hfound⟩ | ⟨session, root, hlatest, hroot, hfound⟩
      · simp at hfound
      · obtain rfl := Option.some.inj hfound
        exact ⟨_, .inArchive hlog hlatest hroot, rfl⟩
    · rcases pausedInArchive_ok_cases hwork with ⟨hlatest, -⟩ | ⟨session, root, -, -, hfound⟩
      · -- the entry has no number either, so it has no link
        have hcontinues : s.continues = none :=
          continues_eq_none_of_ofEvents ht fun n hn => by simp [resumeFilter, hn] at hf
        refine ⟨none, .nowhere hlog hlatest, ?_⟩
        rw [startLink, hcontinues]
        simp [takeOver]
      · simp at hfound

/-- What a number stands for in the timeline it stands for among the finished spans. -/
theorem names_finished (h : resolveFrom archive [] (ofEvents events) = .ok linked) {i n : Nat}
    {t : Span} (ht : (ofEvents events)[i]? = some t)
    (hn : t.entry.resume = some (.numbered n)) :
    Names (linkToStarts [] linked) i n (startLink (linkToStarts [] linked) t) := by
  have hnames := names_ofEvents ht hn
  generalize hlink : t.continues = link at hnames
  cases hnames with
  | @paused k u hnk hk hu hpaused =>
    obtain ⟨m, hm, hstate, hsame⟩ := getElem?_linked h hu
    have hv := getElem?_finished h k
    rw [hm, Option.map_some] at hv
    -- the number leads to the span itself, or to where that span's own link leads
    have hstart : startLink (linkToStarts [] linked) t =
        some (Span.chainStart { m with continues := startLink (linkToStarts [] linked) m } k) := by
      rcases hsame with hnone | rfl
      · rw [Span.chainStart, hnone, Option.getD_none] at hlink
        exact startLink_of_entry hv hlink
      · exact startLink_of_chainStart hv rfl hlink
    rw [hstart]
    exact .paused hnk hk hv (hstate.trans hpaused)
  | nothing hnone =>
    rw [startLink, hlink]
    refine .nothing fun k s hnk hk hs hpaused => ?_
    -- a span that is paused in the end was paused in the timeline
    rw [getElem?_finished h] at hs
    obtain ⟨m, hm, rfl⟩ := Option.map_eq_some_iff.mp hs
    have hlt := (List.getElem?_eq_some_iff.mp hm).1
    rw [(resolveFrom_eq_ok_iff.mp h).1] at hlt
    have hu := List.getElem?_eq_getElem hlt
    obtain ⟨m', hm', hstate, -⟩ := getElem?_linked h hu
    obtain rfl : m = m' := Option.some.inj (hm.symm.trans hm')
    exact hnone k _ hnk hk hu (hstate.symm.trans hpaused)

/-- A finished span has the link that its marker calls for. -/
theorem resumed_finished (h : resolveFrom archive [] (ofEvents events) = .ok linked) {i : Nat}
    {t s : Span} (ht : (ofEvents events)[i]? = some t) (hs : linked[i]? = some s) :
    Resumed archive (linkToStarts [] linked) i t
      { s with continues := startLink (linkToStarts [] linked) s } := by
  -- a marker that asks for no work by its fields leaves the span as the first pass made it
  have hsame : resumeFilter t.entry = none → s = t := fun hf =>
    resolveSpan_of_resumeFilter_none hf ((resolveFrom_eq_ok_iff.mp h).2 i t s ht hs)
  -- without a marker, by number, and the three ways to ask for work by its fields
  refine ⟨?_, ?_, ?_, ?_, ?_⟩
  · intro hn
    obtain rfl := hsame (by simp [resumeFilter, hn])
    have hcontinues : s.continues = none :=
      continues_eq_none_of_ofEvents ht fun n hnumber => by simp [hn] at hnumber
    rw [startLink, hcontinues]
  · intro n hn
    obtain rfl := hsame (by simp [resumeFilter, hn])
    exact ⟨_, names_finished h ht hn, rfl⟩
  · intro hn
    obtain ⟨work, hwork, heq⟩ := exists_finds (f := Filter.any) h ht hs (by simp [resumeFilter, hn])
    rw [if_neg (by simp [hn])] at heq
    exact ⟨work, hwork, heq⟩
  · intro hn hbare
    obtain ⟨work, hwork, heq⟩ :=
      exists_finds (f := Filter.ofEntry t.entry) h ht hs (by simp [resumeFilter, hn, hbare])
    rw [if_neg (by simp [hbare])] at heq
    exact ⟨work, hwork, heq⟩
  · intro hn hbare
    obtain ⟨work, hwork, heq⟩ :=
      exists_finds (f := Filter.any) h ht hs (by simp [resumeFilter, hn, hbare])
    rw [if_pos ⟨hn, hbare⟩] at heq
    exact ⟨work, hwork, heq⟩

/-- Whatever its marker is, a finished span differs from that of the timeline only in its link,
and in what the entry takes over if it says nothing but to go on. -/
theorem Resumed.kept {spans : List Span} {i : Nat} {t s : Span} (h : Resumed archive spans i t s) :
    ∃ entry link, s = { t with entry, continues := link } ∧
      (entry = t.entry ∨
        t.entry.resume = some .latest ∧ t.entry.isBare = true ∧
          ∃ work, entry = takeOver t.entry work) := by
  cases hresume : t.entry.resume with
  | none => exact ⟨_, _, h.unmarked hresume, .inl rfl⟩
  | some marker =>
    cases marker with
    | numbered n =>
      obtain ⟨link, -, hs⟩ := h.numbered n hresume
      exact ⟨_, _, hs, .inl rfl⟩
    | previous =>
      obtain ⟨work, -, hs⟩ := h.previous hresume
      exact ⟨_, _, hs, .inl rfl⟩
    | latest =>
      cases hbare : t.entry.isBare with
      | false =>
        obtain ⟨work, -, hs⟩ := h.described hresume hbare
        exact ⟨_, _, hs, .inl rfl⟩
      | true =>
        obtain ⟨work, -, hs⟩ := h.bare hresume hbare
        exact ⟨_, _, hs, .inr ⟨rfl, rfl, work, rfl⟩⟩

/-- An archive that answers alike wherever the log has no paused work gives the same spans. -/
theorem resolveFrom_congr (h : resolveFrom archive [] (ofEvents events) = .ok linked)
    {other : Archive ε}
    (hother : ∀ i t f, (ofEvents events)[i]? = some t → resumeFilter t.entry = some f →
      (∀ k s, ¬ IsLatestPaused (linkToStarts [] linked) i f k s) →
      pausedInArchive other f = pausedInArchive archive f) :
    resolveFrom other [] (ofEvents events) = .ok linked := by
  obtain ⟨hlength, hsteps⟩ := resolveFrom_eq_ok_iff.mp h
  refine resolveFrom_eq_ok_iff.mpr ⟨hlength, ?_⟩
  intro i t s ht hs
  have hstep := hsteps i t s ht hs
  rw [List.nil_append] at hstep ⊢
  rw [← hstep]
  -- the archive is asked only where the log has nothing
  unfold resolveSpan
  split
  · rfl
  · next f hf =>
    split
    · rfl
    · next hnone =>
      have hlog : ∀ k s, ¬ IsLatestPaused (linkToStarts [] linked) i f k s := by
        intro k s hk
        obtain ⟨u, hu⟩ := exists_isLatestPaused h hk
        exact not_isLatestPaused_of_pausedAmong hnone k u hu
      rw [hother i t f ht hf hlog]

/-! ## All passes over the spans of a log -/

variable {resolved : List Span} {i : Nat} {t s : Span}

/-- The spans of a log with their links are what the last pass makes of the finished ones. -/
theorem resolve_ok (h : resolve archive (ofEvents events) = .ok resolved) :
    ∃ linked, resolveFrom archive [] (ofEvents events) = .ok linked ∧
      resolved = linkToStarts [] linked := by
  obtain ⟨linked, hlinked, heq⟩ := bind_eq_ok.mp h
  exact ⟨linked, hlinked, (Except.ok.inj heq).symm⟩

theorem resumed_of_resolve (h : resolve archive (ofEvents events) = .ok resolved)
    (ht : (ofEvents events)[i]? = some t) (hs : resolved[i]? = some s) :
    Resumed archive resolved i t s := by
  obtain ⟨linked, hlinked, rfl⟩ := resolve_ok h
  rw [getElem?_finished hlinked] at hs
  obtain ⟨m, hm, rfl⟩ := Option.map_eq_some_iff.mp hs
  exact resumed_finished hlinked ht hm

/-- A span that asks for no work by its fields has the link of the timeline, replaced by the start
that this one leads to. -/
theorem eq_of_resumeFilter_none (h : resolve archive (ofEvents events) = .ok resolved)
    (ht : (ofEvents events)[i]? = some t) (hs : resolved[i]? = some s)
    (hf : resumeFilter t.entry = none) : s = { t with continues := startLink resolved t } := by
  obtain ⟨linked, hlinked, rfl⟩ := resolve_ok h
  rw [getElem?_finished hlinked] at hs
  obtain ⟨m, hm, rfl⟩ := Option.map_eq_some_iff.mp hs
  have hspan := (resolveFrom_eq_ok_iff.mp hlinked).2 i t m ht hm
  obtain rfl := resolveSpan_of_resumeFilter_none hf hspan
  rfl

/-- A link of the timeline is to a span, and in the end it is to where this span leads. -/
theorem exists_chainStart_of_resolve (h : resolve archive (ofEvents events) = .ok resolved)
    (ht : (ofEvents events)[i]? = some t) (hs : resolved[i]? = some s) {k : Nat}
    (hlink : t.continues = some (.entry k)) :
    ∃ v, resolved[k]? = some v ∧ s.continues = some (v.chainStart k) := by
  have hfilter : resumeFilter t.entry = none := by
    cases hf : resumeFilter t.entry with
    | none => rfl
    | some f =>
      -- only a number is a link of the timeline
      have hnone := continues_eq_none_of_ofEvents ht fun n hn => by simp [resumeFilter, hn] at hf
      rw [hlink] at hnone
      simp at hnone
  have hlinked : Linked IsPausedStart (fun _ => True) (ofEvents events) := linked_ofEvents events
  obtain ⟨-, u, hu, -⟩ := hlinked.target ht hlink
  have hk : k < resolved.length := by
    rw [length_resolve h]
    exact (List.getElem?_eq_some_iff.mp hu).1
  have hv := List.getElem?_eq_getElem hk
  rw [eq_of_resumeFilter_none h ht hs hfilter]
  exact ⟨_, hv, startLink_of_entry hv hlink⟩

/-- A link to a stored session was made for an entry that asks for work: that of the span itself,
or that of an earlier one whose chain the span goes on with. -/
theorem exists_asks_of_session (h : resolve archive (ofEvents events) = .ok resolved)
    {id : SessionId} (hs : resolved[i]? = some s) (hlink : s.continues = some (.session id)) :
    ∃ j ≤ i, ∃ u, (ofEvents events)[j]? = some u ∧ Asks u := by
  induction i using Nat.strongRecOn generalizing s with
  | ind i ih =>
    have hlt := (List.getElem?_eq_some_iff.mp hs).1
    rw [length_resolve h] at hlt
    have ht := List.getElem?_eq_getElem hlt
    generalize (ofEvents events)[i] = t at ht
    by_cases hasks : Asks t
    · exact ⟨i, Nat.le_refl i, t, ht, hasks⟩
    · have hlinked : Linked IsPausedStart (fun _ => False) (ofEvents events) :=
        linked_ofEvents events
      -- no link of the timeline is to a session, so it is to a span that leads to one
      cases htarget : t.continues with
      | none =>
        rw [eq_of_resumeFilter_none h ht hs (resumeFilter_eq_none_iff.mpr hasks)] at hlink
        simp [startLink, htarget] at hlink
      | some link =>
        cases link with
        | session other => exact (hlinked i t ht _ htarget).elim
        | entry k =>
          obtain ⟨v, hv, hstart⟩ := exists_chainStart_of_resolve h ht hs htarget
          have hchain : v.continues = some (.session id) := by
            rw [hlink, Option.some.injEq, Span.chainStart] at hstart
            cases hv' : v.continues with
            | none => simp [hv'] at hstart
            | some next =>
              rw [hv', Option.getD_some] at hstart
              rw [hstart]
          have hk := (hlinked.target ht htarget).1
          obtain ⟨j, hj, u, hu, hu'⟩ := ih k hk hv hchain
          exact ⟨j, by omega, u, hu, hu'⟩

end Finished

/-- When the archive answers every question, every span of a log goes on with the work that its
marker names, and the archive is asked only where the log has none. -/
theorem resolve_resumed (events : List Event) {archive : Archive ε} (h : Answering archive) :
    ∃ spans, resolve archive (ofEvents events) = .ok spans ∧
      spans.length = (ofEvents events).length ∧
      (∀ i t s, (ofEvents events)[i]? = some t → spans[i]? = some s →
        Resumed archive spans i t s) ∧
      ∀ other : Archive ε,
        (∀ i t f, (ofEvents events)[i]? = some t → resumeFilter t.entry = some f →
          (∀ k s, ¬ IsLatestPaused spans i f k s) →
          pausedInArchive other f = pausedInArchive archive f) →
        resolve other (ofEvents events) = .ok spans := by
  obtain ⟨linked, hlinked⟩ := exists_resolveFrom h [] (ofEvents events)
  have hfinished := getElem?_finished hlinked
  refine ⟨linkToStarts [] linked, bind_eq_ok.mpr ⟨linked, hlinked, rfl⟩, ?_, ?_, ?_⟩
  · rw [length_linkToStarts, (resolveFrom_eq_ok_iff.mp hlinked).1]
  · intro i t s ht hs
    rw [hfinished] at hs
    obtain ⟨m, hm, rfl⟩ := Option.map_eq_some_iff.mp hs
    exact resumed_finished hlinked ht hm
  · intro other hother
    exact bind_eq_ok.mpr ⟨linked, resolveFrom_congr hlinked hother, rfl⟩

theorem isCivil_morning : IsCivil 2024 3 1 := by decide

theorem isSome_morning : (TimeOfDay.ofParts? 9 0 0).isSome := by decide

def morning : DateTime :=
  ⟨⟨2024, 3, 1, isCivil_morning⟩, (TimeOfDay.ofParts? 9 0 0).get isSome_morning⟩

/-- A paused report, which a bare marker and a number go on with, and mail that only the archive
knows of. -/
def resumedMorning : List Event :=
  [.entry { timestamp := morning, description := "Report", suffix := some .paused,
            indent := 0, line := 1 },
    .entry { timestamp := morning.addMinutes 5, description := "", resume := some .latest,
             suffix := some .paused, indent := 0, line := 2 },
    .entry { timestamp := morning.addMinutes 10, description := "Draft",
             resume := some (.numbered 2), indent := 0, line := 3 },
    .entry { timestamp := morning.addMinutes 15, description := "Mail", resume := some .latest,
             indent := 0, line := 4 }]

/-- The archive has one paused session, with the number two, whose chain starts at one. -/
def mailArchive : Archive Empty :=
  let mail (id : SessionId) : Session :=
    { id, description := "Mail", project := none, tags := [], start := morning, stop := some morning
      state := .paused, parent := none, continues := none, estimate := none, remark := none }
  { latestPaused := fun _ => .ok (some (mail (SessionId.next ⟨1, Int.zero_lt_one⟩)))
    chainRoot := fun _ => .ok (some (mail ⟨1, Int.zero_lt_one⟩)) }

theorem answering_mailArchive : Answering mailArchive where
  latest _ := ⟨_, rfl⟩
  root _ := ⟨_, rfl⟩

/-- The bare marker takes the report over, the number leads to where the report began, and the
mail is found in the archive. -/
theorem resolve_resumed_morning :
    ∃ spans, resolve mailArchive (ofEvents resumedMorning) = .ok spans ∧
      (∀ i t s, (ofEvents resumedMorning)[i]? = some t → spans[i]? = some s →
        Resumed mailArchive spans i t s) ∧
      spans.map (fun s => (s.entry.description, s.continues)) =
        [("Report", none), ("Report", some (.entry 0)), ("Draft", some (.entry 0)),
          ("Mail", some (.session ⟨1, Int.zero_lt_one⟩))] := by
  obtain ⟨spans, hspans, -, hresumed, -⟩ := resolve_resumed resumedMorning answering_mailArchive
  refine ⟨spans, hspans, hresumed, ?_⟩
  have hrun : (resolve mailArchive (ofEvents resumedMorning)).toOption.map
      (List.map fun s => (s.entry.description, s.continues)) =
        some [("Report", none), ("Report", some (.entry 0)), ("Draft", some (.entry 0)),
          ("Mail", some (.session ⟨1, Int.zero_lt_one⟩))] := by decide +kernel
  rw [hspans] at hrun
  exact Option.some.inj hrun

end Daybook.Timeline
