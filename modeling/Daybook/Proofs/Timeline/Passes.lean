import Daybook.Proofs.Timeline.Links

/-!
# The passes that make the links

The links of a timeline are made in three passes, each of which goes through the spans in order
and looks at those before. Here each pass is read off position by position: what it makes of a
span, given the spans that it has made of the earlier ones.

* `resolveFrom_eq_ok_iff` : the pass for work that is found by its fields.
* `getElem?_linkToStarts` : the last pass, which replaces the links.
* `startLink_of_chainStart` : spans of one chain lead to one start in the end.
-/

namespace Daybook.Timeline

variable {ε : Type}

/-! ## Links by number -/

theorem getElem?_linkNumbered_take (earlier spans : List Span) (i : Nat) :
    (linkNumbered earlier spans)[i]? = spans[i]?.map fun s =>
      { s with
        continues := numberedLink (earlier ++ (linkNumbered earlier spans).take i) s } := by
  induction spans generalizing earlier i with
  | nil => simp [linkNumbered]
  | cons s rest ih =>
    cases i with
    | zero => simp [linkNumbered]
    | succ i => simp [linkNumbered, ih]

/-- The link of a span of the timeline is made of its number alone. -/
theorem continues_ofEvents {events : List Event} {i : Nat} {t : Span}
    (h : (ofEvents events)[i]? = some t) :
    t.continues = numberedLink ((ofEvents events).take i) { t with continues := none } := by
  have hpass := getElem?_linkNumbered_take [] (unlinked events) i
  rw [show linkNumbered [] (unlinked events) = ofEvents events from rfl, h, List.nil_append]
    at hpass
  obtain ⟨u, hu, rfl⟩ := Option.map_eq_some_iff.mp hpass.symm
  have hnone : u.continues = none := continues_of_mem_spansFrom u (List.mem_of_getElem? hu)
  unfold numberedLink
  simp only [hnone]

theorem continues_eq_none_of_ofEvents {events : List Event} {i : Nat} {t : Span}
    (h : (ofEvents events)[i]? = some t) (hn : ∀ n, t.entry.resume ≠ some (.numbered n)) :
    t.continues = none := by
  rw [continues_ofEvents h, numberedLink]
  split
  · next n hresume => exact absurd hresume (hn _)
  · rfl

/-! ## Links to work that is found by its fields -/

theorem resolveFrom_eq_ok_iff {archive : Archive ε} {earlier spans result : List Span} :
    resolveFrom archive earlier spans = .ok result ↔
      result.length = spans.length ∧
        ∀ i t s, spans[i]? = some t → result[i]? = some s →
          resolveSpan archive (earlier ++ result.take i) t = .ok s := by
  induction spans generalizing earlier result with
  | nil =>
    constructor
    · intro h
      obtain rfl := Except.ok.inj h
      simp
    · rintro ⟨hlength, -⟩
      rw [List.eq_nil_of_length_eq_zero hlength]
      rfl
  | cons t rest ih =>
    constructor
    · intro h
      obtain ⟨s, hs, h⟩ := bind_eq_ok.mp h
      obtain ⟨tail, htail, h⟩ := bind_eq_ok.mp h
      obtain rfl := Except.ok.inj h
      obtain ⟨hlength, hsteps⟩ := ih.mp htail
      refine ⟨by simp [hlength], ?_⟩
      -- the first span has none before it here, and it is before all others
      intro i u v hu hv
      cases i with
      | zero =>
        obtain rfl : t = u := by simpa using hu
        obtain rfl : s = v := by simpa using hv
        simpa using hs
      | succ i =>
        have hstep := hsteps i u v (by simpa using hu) (by simpa using hv)
        simpa using hstep
    · rintro ⟨hlength, hsteps⟩
      cases result with
      | nil => simp at hlength
      | cons s tail =>
        have hhead := hsteps 0 t s rfl rfl
        rw [List.take_zero, List.append_nil] at hhead
        have htail : resolveFrom archive (earlier ++ [s]) rest = .ok tail := by
          refine ih.mpr ⟨by simpa using hlength, ?_⟩
          intro i u v hu hv
          have hstep := hsteps (i + 1) u v (by simpa using hu) (by simpa using hv)
          simpa using hstep
        rw [resolveFrom, hhead]
        exact bind_eq_ok.mpr ⟨s, rfl, bind_eq_ok.mpr ⟨tail, htail, rfl⟩⟩

/-! ## The latest work with a property -/

theorem lastWith_eq_none {p : Span → Bool} {index : Nat} {spans : List Span}
    (h : lastWith p index spans = none) : ∀ s ∈ spans, p s = false := by
  induction spans generalizing index with
  | nil => simp
  | cons first rest ih =>
    unfold lastWith at h
    split at h
    · simp at h
    · next hrest =>
      split at h
      · simp at h
      · next hfirst =>
        intro s hs
        rcases List.mem_cons.mp hs with rfl | hs
        · simpa using hfirst
        · exact ih hrest s hs

theorem lastWith_latest {p : Span → Bool} {index : Nat} {spans : List Span} {k : Nat} {s : Span}
    (h : lastWith p index spans = some (k, s)) :
    ∀ j t, k < index + j → spans[j]? = some t → p t = false := by
  induction spans generalizing index with
  | nil => simp [lastWith] at h
  | cons first rest ih =>
    intro j t hj ht
    unfold lastWith at h
    split at h
    · next found hfound =>
      -- it was found in the rest, so the first span is not after it
      obtain rfl := Option.some.inj h
      obtain ⟨hle, -, -⟩ := lastWith_eq_some hfound
      cases j with
      | zero => omega
      | succ j => exact ih hfound j t (by omega) (by simpa using ht)
    · next hrest =>
      split at h
      · -- the first span is the one, so the rest has none
        obtain ⟨rfl, rfl⟩ : index = k ∧ first = s := by simpa using h
        cases j with
        | zero => omega
        | succ j => exact lastWith_eq_none hrest t (List.mem_of_getElem? (by simpa using ht))
      · simp at h

theorem isPausedWork_eq_true_iff {f : Filter} {s : Span} :
    isPausedWork f s = true ↔
      s.state = .paused ∧ f.admits s.entry.description s.entry.project s.entry.tags = true := by
  simp [isPausedWork]

theorem isPausedWork_eq_false_iff {f : Filter} {s : Span} :
    isPausedWork f s = false ↔
      (s.state = .paused → f.admits s.entry.description s.entry.project s.entry.tags = false) := by
  simp [isPausedWork]

/-! ## Archives that answer -/

/-- The archive has an answer to every question. -/
structure Answering (archive : Archive ε) : Prop where
  latest : ∀ f, ∃ found, archive.latestPaused f = .ok found
  root : ∀ id, ∃ found, archive.chainRoot id = .ok found

theorem exists_pausedInArchive {archive : Archive ε} (h : Answering archive) (f : Filter) :
    ∃ found, pausedInArchive archive f = .ok found := by
  obtain ⟨answer, hanswer⟩ := h.latest f
  cases answer with
  | none => exact ⟨none, bind_eq_ok.mpr ⟨none, hanswer, rfl⟩⟩
  | some session =>
    obtain ⟨root, hroot⟩ := h.root session.id
    exact ⟨_, bind_eq_ok.mpr ⟨some session, hanswer, bind_eq_ok.mpr ⟨root, hroot, rfl⟩⟩⟩

theorem exists_resolveSpan {archive : Archive ε} (h : Answering archive) (earlier : List Span)
    (t : Span) : ∃ s, resolveSpan archive earlier t = .ok s := by
  unfold resolveSpan
  split
  · exact ⟨t, rfl⟩
  · next f _ =>
    split
    · exact ⟨_, rfl⟩
    · obtain ⟨found, hfound⟩ := exists_pausedInArchive h f
      cases found with
      | none => exact ⟨t, bind_eq_ok.mpr ⟨none, hfound, rfl⟩⟩
      | some work => exact ⟨goOn t work, bind_eq_ok.mpr ⟨some work, hfound, rfl⟩⟩

theorem exists_resolveFrom {archive : Archive ε} (h : Answering archive)
    (earlier spans : List Span) : ∃ result, resolveFrom archive earlier spans = .ok result := by
  induction spans generalizing earlier with
  | nil => exact ⟨[], rfl⟩
  | cons t rest ih =>
    obtain ⟨s, hs⟩ := exists_resolveSpan h earlier t
    obtain ⟨tail, htail⟩ := ih (earlier ++ [s])
    exact ⟨s :: tail, bind_eq_ok.mpr ⟨s, hs, bind_eq_ok.mpr ⟨tail, htail, rfl⟩⟩⟩

/-! ## What spans take over -/

/-- What is true of the tags of every span and of the sessions that the archive answers with is
true of the tags that spans have in the end. -/
theorem resolveFrom_tags {P : List String → Prop} {archive : Archive ε}
    (harchive : ∀ f session, archive.latestPaused f = .ok (some session) → P session.tags)
    {earlier spans result : List Span} (hearlier : ∀ s ∈ earlier, P s.entry.tags)
    (hspans : ∀ s ∈ spans, P s.entry.tags)
    (h : resolveFrom archive earlier spans = .ok result) : ∀ s ∈ result, P s.entry.tags := by
  induction spans generalizing earlier result with
  | nil =>
    obtain rfl := Except.ok.inj h
    simp
  | cons t rest ih =>
    obtain ⟨s, hs, h⟩ := bind_eq_ok.mp h
    obtain ⟨tail, htail, h⟩ := bind_eq_ok.mp h
    obtain rfl := Except.ok.inj h
    have ht := hspans t List.mem_cons_self
    have hgoOn : ∀ work : Paused, P work.tags → P (goOn t work).entry.tags := by
      intro work hwork
      unfold goOn
      split
      · exact hwork
      · exact ht
    -- the tags are the entry's own, those of an earlier span, or those of a stored session
    have hhead : P s.entry.tags := by
      cases hf : resumeFilter t.entry with
      | none => exact resolveSpan_of_resumeFilter_none hf hs ▸ ht
      | some f =>
        rcases resolveSpan_ok_cases hf hs with ⟨work, hwork, rfl⟩ | ⟨-, ⟨work, hwork, rfl⟩ | ⟨-, rfl⟩⟩
        · obtain ⟨⟨k, u⟩, hlast, rfl⟩ := Option.map_eq_some_iff.mp hwork
          obtain ⟨-, hu, -⟩ := lastWith_eq_some hlast
          exact hgoOn _ (hearlier u (List.mem_of_getElem? hu))
        · rcases pausedInArchive_ok_cases hwork with ⟨-, hnone⟩ | ⟨session, root, hlatest, -, hfound⟩
          · simp at hnone
          · obtain rfl := Option.some.inj hfound
            exact hgoOn _ (harchive f session hlatest)
        · exact ht
    have hnext : ∀ u ∈ earlier ++ [s], P u.entry.tags := by
      intro u hu
      rcases List.mem_append.mp hu with hu | hu
      · exact hearlier u hu
      · exact List.mem_singleton.mp hu ▸ hhead
    intro u hu
    rcases List.mem_cons.mp hu with rfl | hu
    · exact hhead
    · exact ih hnext (fun u hu => hspans u (List.mem_cons_of_mem _ hu)) htail u hu

/-! ## Links to the starts of chains -/

theorem map_entry_linkToStarts (earlier spans : List Span) :
    (linkToStarts earlier spans).map Span.entry = spans.map Span.entry := by
  induction spans generalizing earlier with
  | nil => rfl
  | cons s rest ih => simp only [linkToStarts, List.map_cons, ih]

theorem length_linkToStarts (earlier spans : List Span) :
    (linkToStarts earlier spans).length = spans.length := by
  induction spans generalizing earlier with
  | nil => rfl
  | cons s rest ih => simp [linkToStarts, ih]

/-- The last pass, when every link within the log is to an earlier span. -/
theorem getElem?_linkToStarts {earlier spans : List Span}
    (h : ∀ i s k, spans[i]? = some s → s.continues = some (.entry k) → k < earlier.length + i)
    (i : Nat) :
    (linkToStarts earlier spans)[i]? = spans[i]?.map fun s =>
      { s with continues := startLink (earlier ++ linkToStarts earlier spans) s } := by
  induction spans generalizing earlier i with
  | nil => rfl
  | cons s rest ih =>
    rw [linkToStarts_cons]
    generalize hs' : { s with continues := startLink (earlier ++ s :: rest) s } = s'
    cases i with
    | zero =>
      -- what stands before the span is the same in both lists
      have hlink : startLink (earlier ++ s :: rest) s =
          startLink (earlier ++ s' :: linkToStarts (earlier ++ [s']) rest) s := by
        unfold startLink
        split
        · next target htarget =>
          have hlt := h 0 s target rfl htarget
          rw [List.getElem?_append_left hlt, List.getElem?_append_left hlt]
        · rfl
      show some s' = some { s with
        continues := startLink (earlier ++ s' :: linkToStarts (earlier ++ [s']) rest) s }
      rw [← hlink, hs']
    | succ i =>
      have hbefore : ∀ j t k, rest[j]? = some t → t.continues = some (.entry k) →
          k < (earlier ++ [s']).length + j := by
        intro j t k ht hk
        have hlt := h (j + 1) t k (by simpa using ht) hk
        rw [List.length_append, List.length_singleton]
        omega
      have hrest := ih hbefore i
      rw [List.append_assoc] at hrest
      simpa using hrest

theorem startLink_eq_some (spans : List Span) {s : Span} {link : Link}
    (h : s.continues = some link) : ∃ start, startLink spans s = some start := by
  unfold startLink
  split
  · split
    · exact ⟨_, rfl⟩
    · exact ⟨_, rfl⟩
  · exact ⟨link, h⟩

/-- A link to a span is replaced by the start that this span leads to in the end. -/
theorem startLink_of_entry {spans : List Span} {s v : Span} {k : Nat} (hv : spans[k]? = some v)
    (hs : s.continues = some (.entry k)) : startLink spans s = some (v.chainStart k) := by
  rw [startLink, hs, Span.chainStart]
  simp only [hv, Option.bind_some]
  cases v.continues with
  | none => rfl
  | some link => rfl

/-- A span that goes on with the work of a chain leads to the start that the span of the chain
leads to in the end. -/
theorem startLink_of_chainStart {spans : List Span} {s u v : Span} {k : Nat}
    (hv : spans[k]? = some v) (hstart : v.continues = startLink spans u)
    (hs : s.continues = some (u.chainStart k)) :
    startLink spans s = some (v.chainStart k) := by
  unfold Span.chainStart at hs
  cases hu : u.continues with
  | none =>
    rw [hu, Option.getD_none] at hs
    exact startLink_of_entry hv hs
  | some link =>
    -- both spans have the same link, so the last pass treats them alike
    rw [hu, Option.getD_some] at hs
    have hsame : startLink spans s = startLink spans u := by
      unfold startLink
      rw [hs, hu]
    obtain ⟨start, hfound⟩ := startLink_eq_some spans hu
    rw [hsame, hfound, Span.chainStart, hstart, hfound, Option.getD_some]

/-! ## All passes -/

theorem length_resolve {archive : Archive ε} {spans result : List Span}
    (h : resolve archive spans = .ok result) : result.length = spans.length := by
  obtain ⟨linked, hlinked, heq⟩ := bind_eq_ok.mp h
  obtain rfl := Except.ok.inj heq
  rw [length_linkToStarts, (resolveFrom_eq_ok_iff.mp hlinked).1]

theorem resolve_tags {P : List String → Prop} {archive : Archive ε}
    (harchive : ∀ f session, archive.latestPaused f = .ok (some session) → P session.tags)
    {spans result : List Span} (hspans : ∀ s ∈ spans, P s.entry.tags)
    (h : resolve archive spans = .ok result) : ∀ s ∈ result, P s.entry.tags := by
  obtain ⟨linked, hlinked, heq⟩ := bind_eq_ok.mp h
  obtain rfl := Except.ok.inj heq
  have htags := resolveFrom_tags harchive (by simp) hspans hlinked
  intro s hs
  have hentry := List.mem_map_of_mem (f := Span.entry) hs
  rw [map_entry_linkToStarts] at hentry
  obtain ⟨u, hu, heq⟩ := List.mem_map.mp hentry
  exact heq ▸ htags u hu

/-- An archive that has an answer to every question lets all links be made. -/
theorem exists_resolve {archive : Archive ε} (h : Answering archive) (spans : List Span) :
    ∃ result, resolve archive spans = .ok result := by
  obtain ⟨linked, hlinked⟩ := exists_resolveFrom h [] spans
  exact ⟨_, bind_eq_ok.mpr ⟨linked, hlinked, rfl⟩⟩

end Daybook.Timeline
