import Daybook.Proofs.Timeline.Resume

/-!
# Spans whose links are made

Once the links of a log are made, making them again changes nothing. An entry that said nothing
but to go on asks a different question the second time, since it has taken over what the work is:
it asked for the latest work, and now it asks for work with these fields. The answer is the same
as long as the archive finds a session again when it is asked for it by its fields.

* `resolveSpan_settled` : a span whose link is made keeps it.
* `linkToStarts_eq_self` : links that are to the starts of chains stay.
* `resolve_settled` : all passes together.
-/

namespace Daybook

theorem Filter.admits_ofEntry (e : Entry) :
    (ofEntry e).admits e.description e.project e.tags = true := by
  have hdescription : (ofEntry e).description.all (· == e.description) = true := by
    rw [ofEntry]
    split <;> simp
  have hproject : (ofEntry e).project.all (fun p => e.project == some p) = true := by
    rw [ofEntry]
    cases e.project <;> simp
  have htag : (ofEntry e).tag.all e.tags.contains = true := by
    rw [ofEntry]
    cases e.tags <;> simp
  rw [admits, hdescription, hproject, htag]
  rfl

namespace Timeline

variable {ε : Type} {archive : Archive ε} {events : List Event} {spans : List Span} {i k : Nat}
  {f : Filter} {s : Span}

/-! ## Narrower questions -/

/-- The session that the archive finds when any will do it also finds when it is asked for work
that the session is. -/
def Narrows (archive : Archive ε) : Prop :=
  ∀ f session, archive.latestPaused Filter.any = .ok (some session) →
    f.admits session.description session.project session.tags = true →
    archive.latestPaused f = .ok (some session)

/-- No paused span that is admitted stands after the latest. -/
theorem IsLatestPaused.le {l : Nat} {t : Span} (hs : IsLatestPaused spans i f k s)
    (ht : IsLatestPaused spans i f l t) : l ≤ k := by
  apply Nat.le_of_not_lt
  intro hlt
  have hfalse := hs.latest l t hlt ht.before ht.found ht.paused
  rw [ht.admitted] at hfalse
  exact Bool.noConfusion hfalse

/-- There is only one latest paused span. -/
theorem IsLatestPaused.unique {l : Nat} {t : Span} (hs : IsLatestPaused spans i f k s)
    (ht : IsLatestPaused spans i f l t) : k = l ∧ s = t := by
  obtain rfl : k = l := Nat.le_antisymm (ht.le hs) (hs.le ht)
  exact ⟨rfl, Option.some.inj (hs.found.symm.trans ht.found)⟩

/-- The latest paused span is what is found among the spans before a position. -/
theorem pausedAmong_of_isLatestPaused (h : IsLatestPaused spans i f k s) :
    pausedAmong f (spans.take i) =
      some ⟨s.chainStart k, s.entry.description, s.entry.project, s.entry.tags⟩ := by
  cases hfound : pausedAmong f (spans.take i) with
  | none => exact absurd h (not_isLatestPaused_of_pausedAmong hfound k s)
  | some work =>
    obtain ⟨l, t, ht, rfl⟩ := pausedAmong_eq_some hfound
    obtain ⟨rfl, rfl⟩ := h.unique ht
    rfl

theorem pausedAmong_eq_none (h : ∀ k s, ¬ IsLatestPaused spans i f k s) :
    pausedAmong f (spans.take i) = none := by
  cases hfound : pausedAmong f (spans.take i) with
  | none => rfl
  | some work =>
    obtain ⟨k, s, hs, -⟩ := pausedAmong_eq_some hfound
    exact absurd hs (h k s)

/-- Where the log has no paused work at all it has none that a filter admits. -/
theorem not_isLatestPaused_of_any (h : ∀ k s, ¬ IsLatestPaused spans i Filter.any k s) :
    ¬ IsLatestPaused spans i f k s := by
  intro hs
  have hnone := lastWith_eq_none (Option.map_eq_none_iff.mp (pausedAmong_eq_none h)) s
    (List.mem_of_getElem? (by rw [List.getElem?_take_of_lt hs.before, hs.found]))
  rw [isPausedWork_eq_true_iff.mpr ⟨hs.paused, rfl⟩] at hnone
  exact Bool.noConfusion hnone

/-- The latest work of all is also the latest that a filter admits, if it admits this work. -/
theorem Finds.narrow (harchive : Narrows archive) {work : Paused}
    (h : Finds archive spans i Filter.any (some work))
    (hf : f.admits work.description work.project work.tags = true) :
    Finds archive spans i f (some work) := by
  cases h with
  | inLog hs =>
    refine .inLog ⟨hs.before, hs.found, hs.paused, hf, ?_⟩
    intro j t hkj hji ht hstate
    have hfalse := hs.latest j t hkj hji ht hstate
    rw [Filter.admits_any] at hfalse
    simp at hfalse
  | inArchive hlog hlatest hroot =>
    exact .inArchive (fun _ _ => not_isLatestPaused_of_any hlog) (harchive f _ hlatest hf) hroot

/-! ## One span -/

theorem pausedInArchive_of_latestPaused {session : Session} {root : Option Session}
    (hlatest : archive.latestPaused f = .ok (some session))
    (hroot : archive.chainRoot session.id = .ok root) :
    pausedInArchive archive f = .ok (some ⟨.session ((root.map Session.id).getD session.id),
      session.description, session.project, session.tags⟩) :=
  bind_eq_ok.mpr ⟨some session, hlatest, bind_eq_ok.mpr ⟨root, hroot, rfl⟩⟩

/-- An entry goes on with the work that the rules find for it. -/
theorem resolveSpan_of_finds {work : Option Paused} (hf : resumeFilter s.entry = some f)
    (h : Finds archive spans i f work) :
    resolveSpan archive (spans.take i) s = .ok (work.elim s (goOn s)) := by
  rw [resolveSpan, hf]
  cases h with
  | inLog hs => simp only [pausedAmong_of_isLatestPaused hs, Option.elim_some]
  | inArchive hlog hlatest hroot =>
    simp only [pausedAmong_eq_none hlog]
    exact bind_eq_ok.mpr ⟨_, pausedInArchive_of_latestPaused hlatest hroot, rfl⟩
  | nowhere hlog hlatest =>
    simp only [pausedAmong_eq_none hlog]
    exact bind_eq_ok.mpr ⟨none, bind_eq_ok.mpr ⟨none, hlatest, rfl⟩, rfl⟩

theorem entry_goOn_of_not_bare {t : Span}
    (h : ¬ (t.entry.resume = some .latest ∧ t.entry.isBare)) (work : Paused) :
    (goOn t work).entry = t.entry := by
  simp only [goOn, if_neg h]

/-- Going on with the same work a second time changes nothing. -/
theorem goOn_goOn (t : Span) (work : Paused) : goOn (goOn t work) work = goOn t work := by
  by_cases hbare : t.entry.resume = some .latest ∧ t.entry.isBare
  · -- what the entry takes over it has taken over already
    have hentry : { (goOn t work).entry with
        description := work.description
        project := work.project
        tags := work.tags } = (goOn t work).entry := by
      simp only [goOn, if_pos hbare]
    rw [goOn, hentry, ite_self]
    rfl
  · -- an entry that says what the work is takes nothing over
    have hentry := entry_goOn_of_not_bare hbare work
    rw [goOn, hentry, if_neg hbare, ← hentry]
    rfl

/-- An entry that has gone on with work asks for the same as before, or it asked for any work and
now asks for work that this one is. -/
theorem exists_resumeFilter_goOn {t : Span} (hf : resumeFilter t.entry = some f) (work : Paused) :
    ∃ f', resumeFilter (goOn t work).entry = some f' ∧
      (f' = f ∨
        f = Filter.any ∧ f'.admits work.description work.project work.tags = true) := by
  by_cases hbare : t.entry.resume = some .latest ∧ t.entry.isBare
  · obtain ⟨hresume, hnothing⟩ := hbare
    obtain rfl : Filter.any = f := by
      simpa [resumeFilter, hresume, hnothing] using hf
    generalize he : (goOn t work).entry = e
    have htaken : e.resume = some .latest ∧ e.description = work.description ∧
        e.project = work.project ∧ e.tags = work.tags := by
      simp only [← he, goOn, hresume, hnothing, and_self, if_true]
    obtain ⟨hlatest, hdescription, hproject, htags⟩ := htaken
    have hfilter : resumeFilter e = some (if e.isBare then Filter.any else Filter.ofEntry e) := by
      rw [resumeFilter, hlatest]
    refine ⟨_, hfilter, ?_⟩
    -- it asks for any work again if the work has no fields to take over
    split
    · exact .inl rfl
    · rw [← hdescription, ← hproject, ← htags]
      exact .inr ⟨rfl, Filter.admits_ofEntry e⟩
  · refine ⟨f, ?_, .inl rfl⟩
    rw [entry_goOn_of_not_bare hbare, hf]

/-- A span that went on with work goes on with it again, and is as it was. -/
theorem resolveSpan_settled (harchive : Narrows archive) {t : Span} {work : Paused}
    (hf : resumeFilter t.entry = some f) (h : Finds archive spans i f (some work)) :
    resolveSpan archive (spans.take i) (goOn t work) = .ok (goOn t work) := by
  obtain ⟨f', hf', hcase⟩ := exists_resumeFilter_goOn hf work
  have hfinds : Finds archive spans i f' (some work) := by
    rcases hcase with rfl | ⟨rfl, hadmits⟩
    · exact h
    · exact h.narrow harchive hadmits
  rw [resolveSpan_of_finds hf' hfinds, Option.elim_some, goOn_goOn]

/-! ## All spans -/

/-- When every link is to the start of a chain, the last pass leaves all links as they are. -/
theorem linkToStarts_eq_self {admitsSession : SessionId → Prop} {earlier : List Span}
    (h : Linked IsPausedStart admitsSession (earlier ++ spans)) :
    linkToStarts earlier spans = spans := by
  induction spans generalizing earlier with
  | nil => rfl
  | cons s rest ih =>
    have hlink : startLink (earlier ++ s :: rest) s = s.continues := by
      unfold startLink
      split
      · next target hs =>
        -- the target is the start of a chain, so it has no link of its own
        obtain ⟨-, u, hu, -, hnone⟩ := h.target (k := earlier.length) (by simp) hs
        rw [hu, Option.bind_some, hnone, hs]
      · rfl
    rw [linkToStarts_cons, hlink]
    rw [List.append_cons] at h
    exact congrArg (List.cons s) (ih h)

/-- A span that asks for work goes on in the end with the work that the rules find for it. -/
theorem eq_goOn_of_resolve {t : Span} (h : resolve archive (ofEvents events) = .ok spans)
    (ht : (ofEvents events)[i]? = some t) (hs : spans[i]? = some s)
    (hf : resumeFilter t.entry = some f) :
    ∃ work, Finds archive spans i f work ∧ s = work.elim t (goOn t) := by
  obtain ⟨linked, hlinked, rfl⟩ := resolve_ok h
  rw [getElem?_finished hlinked] at hs
  obtain ⟨m, hm, rfl⟩ := Option.map_eq_some_iff.mp hs
  obtain ⟨work, hwork, heq⟩ := exists_finds hlinked ht hm hf
  refine ⟨work, hwork, ?_⟩
  rw [heq]
  cases work with
  | none =>
    -- without work the span is as it was, and it had no link
    have hnone : t.continues = none :=
      continues_eq_none_of_ofEvents ht fun n hn => by simp [resumeFilter, hn] at hf
    simp only [takeOver, ite_self, Option.map_none, Option.elim_none, ← hnone]
  | some work => rfl

/-- Every span is resolved to itself, given those before it. -/
theorem resolveSpan_of_resolve (harchive : Narrows archive)
    (h : resolve archive (ofEvents events) = .ok spans) (hs : spans[i]? = some s) :
    resolveSpan archive (spans.take i) s = .ok s := by
  have hlt := (List.getElem?_eq_some_iff.mp hs).1
  rw [length_resolve h] at hlt
  have ht := List.getElem?_eq_getElem hlt
  generalize (ofEvents events)[i] = t at ht
  cases hf : resumeFilter t.entry with
  | none =>
    -- no work is asked for, before as after
    have hentry := congrArg Span.entry (eq_of_resumeFilter_none h ht hs hf)
    rw [resolveSpan, hentry, hf]
  | some f =>
    obtain ⟨work, hwork, rfl⟩ := eq_goOn_of_resolve h ht hs hf
    cases work with
    | none => exact resolveSpan_of_finds hf hwork
    | some work => exact resolveSpan_settled harchive hf hwork

/-- When the archive finds a session by its fields that it finds when any will do, the links of a
log can be made a second time, and everything stays as it is. -/
theorem resolve_settled (harchive : Narrows archive)
    (h : resolve archive (ofEvents events) = .ok spans) : resolve archive spans = .ok spans := by
  have hpass : resolveFrom archive [] spans = .ok spans := by
    refine resolveFrom_eq_ok_iff.mpr ⟨rfl, ?_⟩
    intro i s s' hs hs'
    obtain rfl := Option.some.inj (hs.symm.trans hs')
    exact resolveSpan_of_resolve harchive h hs
  have hlinked := (resolve_linked (answers_session archive) h).2
  have hlast : linkToStarts [] spans = spans := linkToStarts_eq_self hlinked
  exact bind_eq_ok.mpr ⟨spans, hpass, congrArg Except.ok hlast⟩

end Timeline

end Daybook
