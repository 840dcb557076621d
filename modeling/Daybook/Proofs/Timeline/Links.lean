import Daybook.Proofs.Result
import Daybook.Timeline
import Daybook.Timeline.Resume

/-!
# The links of a timeline

Links are made in three passes: by number, to work that is found by its fields, and from each
link to the start of the chain it leads into. A link is to a paused span that stands earlier, or
to a stored session that the archive answers with. Until the last pass the span that is linked
to can have a link of its own; after it no span that is linked to has one.

* `resolve_linked` : the links after all passes.
-/

namespace Daybook.Timeline

/-! ## Links to earlier spans -/

/-- A link of a span that the given spans stand before: to one of them that is admitted, or to a
stored session that is. -/
def Reaches (admitsSpan : Span → Prop) (admitsSession : SessionId → Prop) (earlier : List Span) :
    Link → Prop
  | .entry target => ∃ s, earlier[target]? = some s ∧ admitsSpan s
  | .session id => admitsSession id

/-- Every link of the spans is to an admitted span that stands before, or to an admitted
session. -/
def Linked (admitsSpan : Span → Prop) (admitsSession : SessionId → Prop) (spans : List Span) :
    Prop :=
  ∀ k s, spans[k]? = some s → ∀ link ∈ s.continues,
    Reaches admitsSpan admitsSession (spans.take k) link

/-- The span is paused work. -/
def IsPaused (s : Span) : Prop :=
  s.state = .paused

/-- The span is paused work at the start of a chain. -/
def IsPausedStart (s : Span) : Prop :=
  s.state = .paused ∧ s.continues = none

variable {admitsSpan : Span → Prop} {admitsSession : SessionId → Prop}

theorem Linked.nil : Linked admitsSpan admitsSession [] := by
  intro k s hs
  simp at hs

/-- A span can be put after others when its own link is to one of them. -/
theorem Linked.snoc {earlier : List Span} {s : Span} (h : Linked admitsSpan admitsSession earlier)
    (hs : ∀ link ∈ s.continues, Reaches admitsSpan admitsSession earlier link) :
    Linked admitsSpan admitsSession (earlier ++ [s]) := by
  intro k t ht link hlink
  -- an earlier span, the new one, or none
  rcases Nat.lt_trichotomy k earlier.length with hlt | rfl | hlt
  · rw [List.getElem?_append_left hlt] at ht
    rw [List.take_append_of_le_length (Nat.le_of_lt hlt)]
    exact h k t ht link hlink
  · obtain rfl : s = t := by simpa using ht
    rw [List.take_left]
    exact hs link hlink
  · have hnone : (earlier ++ [s])[k]? = none := by
      apply List.getElem?_eq_none
      rw [List.length_append, List.length_singleton]
      exact hlt
    simp [hnone] at ht

theorem Linked.left {earlier rest : List Span}
    (h : Linked admitsSpan admitsSession (earlier ++ rest)) :
    Linked admitsSpan admitsSession earlier := by
  intro k s hs link hlink
  have hlt := (List.getElem?_eq_some_iff.mp hs).1
  have hreach := h k s (by rw [List.getElem?_append_left hlt, hs]) link hlink
  rwa [List.take_append_of_le_length (Nat.le_of_lt hlt)] at hreach

theorem Linked.head {earlier rest : List Span} {s : Span}
    (h : Linked admitsSpan admitsSession (earlier ++ s :: rest)) :
    ∀ link ∈ s.continues, Reaches admitsSpan admitsSession earlier link := by
  intro link hlink
  have hs := h earlier.length s (by simp) link hlink
  rwa [List.take_left] at hs

/-- A link to a span is to an admitted one at an earlier position. -/
theorem Linked.target {spans : List Span} (h : Linked admitsSpan admitsSession spans) {k : Nat}
    {s : Span} (hs : spans[k]? = some s) {target : Nat} (hlink : s.continues = some (.entry target)) :
    target < k ∧ ∃ t, spans[target]? = some t ∧ admitsSpan t := by
  obtain ⟨t, ht, hadmits⟩ := h k s hs _ hlink
  rw [List.getElem?_take, Option.ite_none_right_eq_some] at ht
  exact ⟨ht.1, t, ht.2, hadmits⟩

/-- The chain that goes through an earlier span leads to a span or a session that is admitted. -/
theorem Linked.chainStart {earlier : List Span} (h : Linked admitsSpan admitsSession earlier)
    {k : Nat} {s : Span} (hk : earlier[k]? = some s) (hs : s.continues = none → admitsSpan s) :
    Reaches admitsSpan admitsSession earlier (s.chainStart k) := by
  unfold Span.chainStart
  cases hlink : s.continues with
  | none => exact ⟨s, hk, hs hlink⟩
  | some link =>
    -- what stands before the earlier span stands before the later ones as well
    rw [Option.getD_some]
    cases link with
    | session id => exact h k s hk _ hlink
    | entry target => exact (h.target hk hlink).2

theorem Linked.mono {admitsSpan' : Span → Prop} {spans : List Span}
    (h : Linked admitsSpan admitsSession spans) (himp : ∀ s, admitsSpan s → admitsSpan' s) :
    Linked admitsSpan' admitsSession spans := by
  intro k s hs link hlink
  have hreach := h k s hs link hlink
  cases link with
  | session id => exact hreach
  | entry target =>
    obtain ⟨t, ht, hadmits⟩ := hreach
    exact ⟨t, ht, himp t hadmits⟩

theorem getElem?_replace {earlier rest : List Span} (s s' : Span) {k : Nat}
    (hk : k ≠ earlier.length) :
    (earlier ++ s' :: rest)[k]? = (earlier ++ s :: rest)[k]? := by
  rcases Nat.lt_or_gt_of_ne hk with hlt | hgt
  · rw [List.getElem?_append_left hlt, List.getElem?_append_left hlt]
  · obtain ⟨j, rfl⟩ : ∃ j, k = earlier.length + (j + 1) := ⟨k - earlier.length - 1, by omega⟩
    rw [List.getElem?_append_right (Nat.le_add_right _ _),
      List.getElem?_append_right (Nat.le_add_right _ _), Nat.add_sub_cancel_left]
    rfl

/-- A span can take the place of another one in the same state, if its own links are good. -/
theorem Linked.replace {earlier rest : List Span} {s s' : Span}
    (h : Linked IsPaused admitsSession (earlier ++ s :: rest)) (hstate : s'.state = s.state)
    (hs' : ∀ link ∈ s'.continues, Reaches IsPaused admitsSession earlier link) :
    Linked IsPaused admitsSession (earlier ++ s' :: rest) := by
  intro k t ht link hlink
  -- the links of the other spans stay, and the state of what they are to does
  by_cases hk : k = earlier.length
  · subst hk
    obtain rfl : s' = t := by simpa using ht
    rw [List.take_left]
    exact hs' link hlink
  · rw [getElem?_replace s s' hk] at ht
    have hreach := h k t ht link hlink
    cases link with
    | session id => exact hreach
    | entry target =>
      obtain ⟨u, hu, hpaused⟩ := hreach
      rw [List.getElem?_take, Option.ite_none_right_eq_some] at hu
      obtain ⟨hlt, hu⟩ := hu
      by_cases htarget : target = earlier.length
      · subst htarget
        obtain rfl : s = u := by simpa using hu
        refine ⟨s', ?_, hstate.trans hpaused⟩
        rw [List.getElem?_take_of_lt hlt]
        simp
      · refine ⟨u, ?_, hpaused⟩
        rw [List.getElem?_take_of_lt hlt, getElem?_replace s s' htarget]
        exact hu

/-! ## Links by number -/

theorem reaches_numberedLink {earlier : List Span}
    (h : Linked IsPausedStart admitsSession earlier) {s : Span} (hs : s.continues = none) :
    ∀ link ∈ numberedLink earlier s, Reaches IsPausedStart admitsSession earlier link := by
  intro link hlink
  unfold numberedLink at hlink
  rw [hs] at hlink
  split at hlink
  · next n =>
    split at hlink
    · next target htarget =>
      split at hlink
      · next hpaused =>
        obtain rfl := Option.some.inj hlink
        exact h.chainStart htarget fun hnone => ⟨hpaused, hnone⟩
      · simp at hlink
    · simp at hlink
  · simp at hlink

theorem linked_linkNumbered {earlier spans : List Span}
    (h : Linked IsPausedStart admitsSession earlier) (hs : ∀ s ∈ spans, s.continues = none) :
    Linked IsPausedStart admitsSession (earlier ++ linkNumbered earlier spans) := by
  induction spans generalizing earlier with
  | nil => simpa [linkNumbered] using h
  | cons s rest ih =>
    -- a link by number is made against spans whose links are final
    have hhead := reaches_numberedLink h (hs s List.mem_cons_self)
    have hnext := h.snoc (s := { s with continues := numberedLink earlier s }) hhead
    have htail := ih hnext fun t ht => hs t (List.mem_cons_of_mem _ ht)
    rwa [List.append_assoc] at htail

theorem continues_of_mem_spansFrom {found : List (Nat × Closing)} {index : Nat}
    {entries : List (Entry × Option Nat)} :
    ∀ s ∈ spansFrom found index entries, s.continues = none := by
  induction entries generalizing index with
  | nil => simp [spansFrom]
  | cons p rest ih =>
    intro s hs
    rcases List.mem_cons.mp hs with rfl | hs
    · rfl
    · exact ih s hs

/-- In the timeline of a log every link is to an earlier span that is paused and has no link. -/
theorem linked_ofEvents (events : List Event) :
    Linked IsPausedStart admitsSession (ofEvents events) := by
  have h : Linked IsPausedStart admitsSession ([] ++ linkNumbered [] (unlinked events)) :=
    linked_linkNumbered Linked.nil continues_of_mem_spansFrom
  rwa [List.nil_append] at h

/-! ## Links to work that is found by its fields -/

/-- What links do not change: the bounds, the state and the place of a span. -/
def frame (s : Span) : DateTime × Option DateTime × State × Option Nat :=
  (s.start, s.stop, s.state, s.parent)

/-- Spans that links were made for stand where they stood, with the same frames. -/
theorem exists_of_map_frame {spans result : List Span} (h : result.map frame = spans.map frame)
    {k : Nat} {s : Span} (hs : result[k]? = some s) :
    ∃ t, spans[k]? = some t ∧ s.start = t.start ∧ s.stop = t.stop ∧ s.state = t.state ∧
      s.parent = t.parent := by
  have hframe : (spans.map frame)[k]? = some (frame s) := by
    rw [← h, List.getElem?_map, hs, Option.map_some]
  rw [List.getElem?_map, Option.map_eq_some_iff] at hframe
  obtain ⟨t, ht, heq⟩ := hframe
  simp only [frame, Prod.mk.injEq] at heq
  exact ⟨t, ht, heq.1.symm, heq.2.1.symm, heq.2.2.1.symm, heq.2.2.2.symm⟩

theorem frame_goOn (s : Span) (work : Paused) : frame (goOn s work) = frame s := by
  unfold goOn frame Span.start
  split <;> rfl

theorem lastWith_eq_some {p : Span → Bool} {index : Nat} {spans : List Span} {k : Nat} {s : Span}
    (h : lastWith p index spans = some (k, s)) :
    index ≤ k ∧ spans[k - index]? = some s ∧ p s = true := by
  induction spans generalizing index with
  | nil => simp [lastWith] at h
  | cons t rest ih =>
    unfold lastWith at h
    split at h
    · next found hfound =>
      obtain rfl := Option.some.inj h
      obtain ⟨hle, hget, hp⟩ := ih hfound
      obtain ⟨j, rfl⟩ : ∃ j, k = index + 1 + j := ⟨k - (index + 1), by omega⟩
      refine ⟨by omega, ?_, hp⟩
      rw [Nat.add_sub_cancel_left] at hget
      rw [show index + 1 + j - index = j + 1 by omega, List.getElem?_cons_succ]
      exact hget
    · split at h
      · next hp =>
        obtain ⟨rfl, rfl⟩ : index = k ∧ t = s := by simpa using h
        exact ⟨Nat.le_refl _, by simp, hp⟩
      · simp at h

/-- Paused work of the log is found where its chain starts. -/
theorem reaches_pausedAmong {f : Filter} {earlier : List Span}
    (h : Linked IsPaused admitsSession earlier) {work : Paused}
    (hwork : pausedAmong f earlier = some work) :
    Reaches IsPaused admitsSession earlier work.link := by
  obtain ⟨⟨k, s⟩, hlast, rfl⟩ := Option.map_eq_some_iff.mp hwork
  obtain ⟨-, hget, hp⟩ := lastWith_eq_some hlast
  have hpaused : IsPaused s := by
    simp only [isPausedWork, Bool.and_eq_true, decide_eq_true_eq] at hp
    exact hp.1
  exact h.chainStart hget fun _ => hpaused

section Archive

variable {ε : Type} {archive : Archive ε}

/-- An entry that asks for work goes on with what the log has, or else with what the archive has,
or stays as it is. -/
theorem resolveSpan_ok_cases {earlier : List Span} {f : Filter} {t s : Span}
    (hf : resumeFilter t.entry = some f) (h : resolveSpan archive earlier t = .ok s) :
    (∃ work, pausedAmong f earlier = some work ∧ s = goOn t work) ∨
      (pausedAmong f earlier = none ∧
        ((∃ work, pausedInArchive archive f = .ok (some work) ∧ s = goOn t work) ∨
          (pausedInArchive archive f = .ok none ∧ s = t))) := by
  rw [resolveSpan, hf] at h
  simp only at h
  split at h
  · next work hwork => exact .inl ⟨work, hwork, (Except.ok.inj h).symm⟩
  · next hnone =>
    obtain ⟨found, hfound, h⟩ := bind_eq_ok.mp h
    cases found with
    | none => exact .inr ⟨hnone, .inr ⟨hfound, (Except.ok.inj h).symm⟩⟩
    | some work => exact .inr ⟨hnone, .inl ⟨work, hfound, (Except.ok.inj h).symm⟩⟩

theorem resolveSpan_of_resumeFilter_none {earlier : List Span} {t s : Span}
    (hf : resumeFilter t.entry = none) (h : resolveSpan archive earlier t = .ok s) : s = t := by
  rw [resolveSpan, hf] at h
  exact (Except.ok.inj h).symm

/-- What the archive found, and where. -/
theorem pausedInArchive_ok_cases {f : Filter} {found : Option Paused}
    (h : pausedInArchive archive f = .ok found) :
    (archive.latestPaused f = .ok none ∧ found = none) ∨
      ∃ session root, archive.latestPaused f = .ok (some session) ∧
        archive.chainRoot session.id = .ok root ∧
        found = some ⟨.session ((root.map Session.id).getD session.id), session.description,
          session.project, session.tags⟩ := by
  obtain ⟨answer, hanswer, h⟩ := bind_eq_ok.mp h
  cases answer with
  | none => exact .inl ⟨hanswer, (Except.ok.inj h).symm⟩
  | some session =>
    obtain ⟨root, hroot, h⟩ := bind_eq_ok.mp h
    exact .inr ⟨session, root, hanswer, hroot, (Except.ok.inj h).symm⟩

/-- The archive answers with admitted sessions only. -/
def Answers (archive : Archive ε) (admitsSession : SessionId → Prop) : Prop :=
  ∀ f work, pausedInArchive archive f = .ok (some work) →
    ∃ id, work.link = .session id ∧ admitsSession id

/-- Whatever an archive answers with is a session. -/
theorem answers_session (archive : Archive ε) : Answers archive fun _ => True := by
  intro f work hwork
  rcases pausedInArchive_ok_cases hwork with ⟨-, hnone⟩ | ⟨session, root, -, -, hfound⟩
  · simp at hnone
  · obtain rfl := Option.some.inj hfound
    exact ⟨_, rfl, trivial⟩

theorem resolveSpan_ok (hanswers : Answers archive admitsSession) {earlier : List Span}
    (h : Linked IsPaused admitsSession earlier) {s s' : Span}
    (hs : ∀ link ∈ s.continues, Reaches IsPaused admitsSession earlier link)
    (hok : resolveSpan archive earlier s = .ok s') :
    frame s' = frame s ∧
      ∀ link ∈ s'.continues, Reaches IsPaused admitsSession earlier link := by
  have hgoOn : ∀ work : Paused, Reaches IsPaused admitsSession earlier work.link →
      frame (goOn s work) = frame s ∧
        ∀ link ∈ (goOn s work).continues, Reaches IsPaused admitsSession earlier link := by
    intro work hreach
    refine ⟨frame_goOn s work, ?_⟩
    intro link hlink
    obtain rfl := Option.some.inj hlink
    exact hreach
  -- no work is asked for, or it is found in the log, in the archive, or nowhere
  cases hf : resumeFilter s.entry with
  | none =>
    obtain rfl := resolveSpan_of_resumeFilter_none hf hok
    exact ⟨rfl, hs⟩
  | some f =>
    rcases resolveSpan_ok_cases hf hok with ⟨work, hwork, rfl⟩ | ⟨-, ⟨work, hwork, rfl⟩ | ⟨-, rfl⟩⟩
    · exact hgoOn work (reaches_pausedAmong h hwork)
    · obtain ⟨id, hid, hadmits⟩ := hanswers f work hwork
      apply hgoOn work
      rw [hid]
      exact hadmits
    · exact ⟨rfl, hs⟩

theorem resolveFrom_ok (hanswers : Answers archive admitsSession) {earlier spans result : List Span}
    (h : Linked IsPaused admitsSession (earlier ++ spans))
    (hok : resolveFrom archive earlier spans = .ok result) :
    result.map frame = spans.map frame ∧ Linked IsPaused admitsSession (earlier ++ result) := by
  induction spans generalizing earlier result with
  | nil =>
    obtain rfl := Except.ok.inj hok
    exact ⟨rfl, h⟩
  | cons s rest ih =>
    obtain ⟨s', hs', hok⟩ := bind_eq_ok.mp hok
    obtain ⟨rest', hrest, hok⟩ := bind_eq_ok.mp hok
    obtain rfl := Except.ok.inj hok
    -- the span that is done takes its place among the earlier ones
    obtain ⟨hframe, hlinks⟩ := resolveSpan_ok hanswers h.left h.head hs'
    have hstate : s'.state = s.state := congrArg (fun p => p.2.2.1) hframe
    have hnext := h.replace hstate hlinks
    rw [List.append_cons] at hnext
    obtain ⟨hframes, hlinked⟩ := ih hnext hrest
    rw [List.append_assoc] at hlinked
    exact ⟨by rw [List.map_cons, List.map_cons, hframe, hframes], hlinked⟩

end Archive

/-! ## Links to the starts of chains -/

/-- The link of a span after the last pass, among all spans of the log. -/
def startLink (spans : List Span) (s : Span) : Option Link :=
  match s.continues with
  | some (.entry target) =>
    match (spans[target]?).bind Span.continues with
    | some link => some link
    | none => some (.entry target)
  | other => other

theorem linkToStarts_cons (earlier : List Span) (s : Span) (rest : List Span) :
    linkToStarts earlier (s :: rest) =
      let linked := { s with continues := startLink (earlier ++ s :: rest) s }
      linked :: linkToStarts (earlier ++ [linked]) rest := rfl

/-- The link of a span is replaced by the link of its target; then it is to the start of a
chain. -/
theorem reaches_startLink {earlier rest : List Span} {s : Span}
    (hearlier : Linked IsPausedStart admitsSession earlier)
    (h : Linked IsPaused admitsSession (earlier ++ s :: rest)) :
    ∀ link ∈ startLink (earlier ++ s :: rest) s,
      Reaches IsPausedStart admitsSession earlier link := by
  intro link hlink
  unfold startLink at hlink
  split at hlink
  · next target hs =>
    obtain ⟨t, ht, hpaused⟩ := h.head _ hs
    have hlt := (List.getElem?_eq_some_iff.mp ht).1
    rw [List.getElem?_append_left hlt, ht, Option.bind_some] at hlink
    -- the target is an earlier span, so its own link is final
    have hstart := hearlier.chainStart ht fun hnone => ⟨hpaused, hnone⟩
    unfold Span.chainStart at hstart
    split at hlink
    · next next hnext =>
      obtain rfl := Option.some.inj hlink
      rwa [hnext, Option.getD_some] at hstart
    · next hnext =>
      obtain rfl := Option.some.inj hlink
      rwa [hnext, Option.getD_none] at hstart
  · next hother =>
    have hreach := h.head link hlink
    cases link with
    | session id => exact hreach
    | entry target => exact absurd hlink (hother target)

theorem linkToStarts_ok {earlier spans : List Span}
    (hearlier : Linked IsPausedStart admitsSession earlier)
    (h : Linked IsPaused admitsSession (earlier ++ spans)) :
    (linkToStarts earlier spans).map frame = spans.map frame ∧
      Linked IsPausedStart admitsSession (earlier ++ linkToStarts earlier spans) := by
  induction spans generalizing earlier with
  | nil =>
    rw [linkToStarts, List.append_nil]
    exact ⟨rfl, hearlier⟩
  | cons s rest ih =>
    have hlink := reaches_startLink hearlier h
    have hweak : ∀ link ∈ startLink (earlier ++ s :: rest) s,
        Reaches IsPaused admitsSession earlier link := by
      intro link hmem
      have hreach := hlink link hmem
      cases link with
      | session id => exact hreach
      | entry target =>
        obtain ⟨t, ht, hstart⟩ := hreach
        exact ⟨t, ht, hstart.1⟩
    rw [linkToStarts_cons]
    generalize hs' : { s with continues := startLink (earlier ++ s :: rest) s } = s'
    have hnext : Linked IsPausedStart admitsSession (earlier ++ [s']) :=
      hearlier.snoc (hs' ▸ hlink)
    have hrest : Linked IsPaused admitsSession (earlier ++ s' :: rest) :=
      h.replace (hs' ▸ rfl) (hs' ▸ hweak)
    rw [List.append_cons] at hrest
    obtain ⟨hframes, hlinked⟩ := ih hnext hrest
    rw [List.append_assoc] at hlinked
    have hframe : frame s' = frame s := hs' ▸ rfl
    exact ⟨by rw [List.map_cons, List.map_cons, hframe, hframes], hlinked⟩

/-- After all passes every link is to the start of a chain: an earlier span that is paused and
has no link, or a session that the archive answers with. The bounds, the states and the places
of the spans are those of the timeline. -/
theorem resolve_linked {ε : Type} {archive : Archive ε} (hanswers : Answers archive admitsSession)
    {events : List Event} {spans : List Span} (h : resolve archive (ofEvents events) = .ok spans) :
    spans.map frame = (ofEvents events).map frame ∧ Linked IsPausedStart admitsSession spans := by
  obtain ⟨found, hfound, heq⟩ := bind_eq_ok.mp h
  obtain rfl := Except.ok.inj heq
  have hnumbered : Linked IsPaused admitsSession ([] ++ ofEvents events) :=
    (linked_ofEvents events).mono fun _ hs => hs.1
  -- links by number are final, but their targets may get links in the second pass
  obtain ⟨hframes, hlinked⟩ := resolveFrom_ok hanswers hnumbered hfound
  obtain ⟨hframes', hlinked'⟩ := linkToStarts_ok Linked.nil hlinked
  exact ⟨hframes'.trans hframes, by simpa using hlinked'⟩

end Daybook.Timeline
