import Daybook.Event.Printer
import Daybook.Log
import Daybook.Proofs.Duration
import Daybook.Proofs.Event.Steps
import Daybook.Proofs.Event.Timestamp
import Daybook.Proofs.Line.Form

/-!
# Canonical events

An event is canonical when every part of it can be told from the others in its line. The line
of a canonical event is a canonical line, and reading it gives the event back.

* `Event.readLine_text` : the line of a canonical event is read as the event.
-/

namespace Daybook

open Text

/-! ## What makes an event canonical -/

/-- Every field of the entry can be written so that it reads back. -/
structure Entry.Canonical (e : Entry) : Prop where
  timestamp : e.timestamp.Canonical
  description : ∃ ws, (∀ w ∈ ws, IsPlainWord w) ∧ e.description.toList = joinWith [' '] ws
  project : ∀ p ∈ e.project, Mark.Legible (.project, p.toList)
  tags : ∀ t ∈ e.tags, Mark.Legible (.tag, t.toList)
  nodup : e.tags.Nodup
  estimate : ∀ n ∈ e.estimate, 0 < n ∧ n < minutesBound
  duration : ∀ n ∈ e.duration, 0 < n ∧ n < minutesBound
  suffix : ∀ s ∈ e.suffix, s ≠ .working
  resume : ∀ n, e.resume = some (.numbered n) → 0 < n ∧ n < indexBound
  remark : ∀ r ∈ e.remark, IsRemark r.toList

/-- The line of the event says what the event is. -/
def Event.Canonical : Event → Prop
  | .entry e => e.Canonical ∧ ¬ (e.isBare && e.resume.isNone) = true
  | .stop s => s.timestamp.Canonical ∧ ∀ r ∈ s.remark, IsRemark r.toList

/-- The same event on another line. -/
def Event.atLine (line : Nat) : Event → Event
  | .entry e => .entry { e with line }
  | .stop s => .stop { s with line }

/-! ## The marks of an entry -/

/-- The annotations of an entry, in the order in which they are written. -/
def Entry.annotations (e : Entry) : List Mark :=
  e.project.toList.map (fun p => (.project, p.toList)) ++
    e.tags.map (fun t => (.tag, t.toList)) ++
    e.estimate.toList.map (fun n => (.estimate, (Duration.format n).toList)) ++
    e.duration.toList.map (fun n => (.duration, (Duration.format n).toList)) ++
    e.suffix.toList.map (fun s => (.suffix, s.word.toList)) ++
    e.resume.toList.map (fun r => (.resume, r.word.toList))

private theorem legible_format (n : Nat) :
    Mark.Legible (.estimate, (Duration.format n).toList) ∧
      Mark.Legible (.duration, (Duration.format n).toList) := by
  have hne := Duration.format_ne_empty n
  -- digits and the letters of the units are all that a duration has
  have hhash : '#' ∉ (Duration.format n).toList := by
    intro hmem
    rcases Duration.mem_format hmem with h | h | h <;> exact absurd h (by decide)
  have hblank : ∀ c ∈ (Duration.format n).toList, isBlank c = false := by
    intro c hc
    rcases Duration.mem_format hc with h | rfl | rfl
    · exact isBlank_eq_false_of_isDigit h
    · decide
    · decide
  refine ⟨⟨⟨hhash, hne⟩, List.cons_ne_nil _ _, ?_⟩, ⟨hhash, trivial⟩, List.cons_ne_nil _ _, ?_⟩
  · intro c hc
    rcases List.mem_cons.mp hc with rfl | hc
    · decide
    · exact hblank c hc
  · intro c hc
    rcases List.mem_cons.mp hc with rfl | hc
    · decide
    · rcases List.mem_append.mp hc with hc | hc
      · exact hblank c hc
      · obtain rfl := List.mem_singleton.mp hc
        decide

private theorem legible_suffix {s : State} (h : s ≠ .working) :
    Mark.Legible (.suffix, s.word.toList) := by
  cases s with
  | working => exact absurd rfl h
  | paused => exact ⟨⟨by decide, by decide⟩, isWord_of_all (by decide) (by decide)⟩
  | completed => exact ⟨⟨by decide, by decide⟩, isWord_of_all (by decide) (by decide)⟩
  | abandoned => exact ⟨⟨by decide, by decide⟩, isWord_of_all (by decide) (by decide)⟩

private theorem legible_resume (r : Resume) : Mark.Legible (.resume, r.word.toList) := by
  cases r with
  | latest => exact ⟨⟨by decide, by decide, by decide⟩, isWord_of_all (by decide) (by decide)⟩
  | previous => exact ⟨⟨by decide, by decide, by decide⟩, isWord_of_all (by decide) (by decide)⟩
  | numbered n =>
    have hword : (Resume.word (.numbered n)).toList = digits n := by
      rw [Resume.word, ofNat, String.toList_ofList]
    rw [hword]
    refine ⟨⟨?_, digits_ne_nil n, nameKind_digits n⟩, List.cons_ne_nil _ _, ?_⟩
    · exact notMem_of_isDigit (fun c hc => isDigit_of_mem_digits hc) (by decide)
    · intro c hc
      rcases List.mem_cons.mp hc with rfl | hc
      · decide
      · exact isBlank_eq_false_of_isDigit (isDigit_of_mem_digits hc)

private theorem legible_stop (s : Stop) : Mark.Legible (.stop, s.word.toList) := by
  cases s with
  | finish => exact ⟨⟨by decide, by decide, by decide⟩, isWord_of_all (by decide) (by decide)⟩
  | pause => exact ⟨⟨by decide, by decide, by decide⟩, isWord_of_all (by decide) (by decide)⟩
  | abandon => exact ⟨⟨by decide, by decide, by decide⟩, isWord_of_all (by decide) (by decide)⟩

theorem Entry.Canonical.legible {e : Entry} (h : e.Canonical) :
    ∀ m ∈ e.annotations, m.Legible := by
  intro m hm
  simp only [Entry.annotations, List.mem_append, List.mem_map, Option.mem_toList] at hm
  rcases hm with ((((⟨p, hp, rfl⟩ | ⟨t, ht, rfl⟩) | ⟨n, -, rfl⟩) | ⟨n, -, rfl⟩) |
    ⟨s, hs, rfl⟩) | ⟨r, -, rfl⟩
  · exact h.project p hp
  · exact h.tags t ht
  · exact (legible_format n).1
  · exact (legible_format n).2
  · exact legible_suffix (h.suffix s hs)
  · exact legible_resume r

/-! ## The line of an event as a form -/

/-- The parts of the line for an entry whose description has the given words. -/
def Entry.form (e : Entry) (ws : List (List Char)) : LineForm :=
  { indent := e.indent
    date := e.timestamp.date.text
    time := e.timestamp.time.logText
    plain := ws
    annotations := e.annotations
    remark := e.remark.map String.toList }

/-- The parts of the line for a stop. -/
def StopLine.form (s : StopLine) : LineForm :=
  { indent := s.indent
    date := s.timestamp.date.text
    time := s.timestamp.time.logText
    plain := []
    annotations := [(.stop, s.stop.word.toList)]
    remark := s.remark.map String.toList }

theorem toList_optional_remark (remark : Option String) :
    (optional (" # " ++ ·) remark).toList = remarkEnd (remark.map String.toList) := by
  cases remark with
  | none => rfl
  | some r => simp [optional, remarkEnd]

private theorem toList_optional {α : Type} (write : α → String) (mark : α → Mark)
    (h : ∀ a, (write a).toList = ' ' :: (mark a).written) (o : Option α) :
    (optional write o).toList = spaced ((o.toList.map mark).map Mark.written) := by
  cases o with
  | none => rfl
  | some a => simp [optional, h]

private theorem toList_join_tags (tags : List String) :
    (String.join (tags.map (" +" ++ ·))).toList =
      spaced ((tags.map fun t => ((.tag, t.toList) : Mark)).map Mark.written) := by
  induction tags with
  | nil => rfl
  | cons t ts ih =>
    rw [List.map_cons, List.map_cons, List.map_cons, spaced_cons, ← ih]
    simp [String.join_cons, Mark.written]

/-- The line for an entry is its form. -/
theorem Entry.toList_text {e : Entry} {ws : List (List Char)} (hws : ∀ w ∈ ws, IsPlainWord w)
    (h : e.description.toList = joinWith [' '] ws) : e.text.toList = (e.form ws).text := by
  -- an empty description leaves no space behind
  have hdescription : (if e.description = "" then "" else " " ++ e.description).toList =
      spaced ws := by
    cases ws with
    | nil =>
      have : e.description = "" := String.toList_inj.mp (by simpa [joinWith] using h)
      simp [this]
    | cons w ws =>
      have hne : e.description ≠ "" := by
        intro hempty
        have hw := (hws w List.mem_cons_self).1.1
        rw [hempty] at h
        cases ws <;> simp_all [joinWith]
      rw [if_neg hne, String.toList_append, h, spaced_eq_cons_joinWith (List.cons_ne_nil _ _)]
      rfl
  unfold Entry.text
  simp only [String.toList_append, hdescription, indentText, String.toList_ofList,
    DateTime.logText_eq, toList_optional_remark, toList_join_tags]
  rw [toList_optional _ (fun p => (.project, p.toList)) (by simp [Mark.written]),
    toList_optional _ (fun n => (.estimate, (Duration.format n).toList)) (by simp [Mark.written]),
    toList_optional _ (fun n => (.duration, (Duration.format n).toList)) (by simp [Mark.written]),
    toList_optional _ (fun s => (.suffix, s.word.toList)) (by simp [Mark.written]),
    toList_optional _ (fun r => (.resume, r.word.toList)) (by simp [Mark.written])]
  simp [LineForm.text, LineForm.body, LineForm.words, Entry.form, Entry.annotations]

/-- The line for a stop is its form. -/
theorem StopLine.toList_text (s : StopLine) : s.text.toList = s.form.text := by
  unfold StopLine.text
  simp only [String.toList_append, indentText, String.toList_ofList, DateTime.logText_eq,
    toList_optional_remark]
  simp [LineForm.text, LineForm.body, LineForm.words, StopLine.form, Mark.written]

/-! ## Legible lines -/

theorem Entry.Canonical.form_legible {e : Entry} (h : e.Canonical) {ws : List (List Char)}
    (hws : ∀ w ∈ ws, IsPlainWord w) : (e.form ws).Legible where
  date := ⟨isDateShape_text h.timestamp.fourDigit, Date.isWord_text h.timestamp.fourDigit⟩
  time := ⟨e.timestamp.time.isTimeShape_logText, e.timestamp.time.isWord_logText⟩
  plain := hws
  annotations := h.legible
  remark := by
    intro r hr
    obtain ⟨text, htext, rfl⟩ := Option.map_eq_some_iff.mp hr
    exact h.remark text htext

theorem StopLine.form_legible {s : StopLine} (ht : s.timestamp.Canonical)
    (hr : ∀ r ∈ s.remark, IsRemark r.toList) : s.form.Legible where
  date := ⟨isDateShape_text ht.fourDigit, Date.isWord_text ht.fourDigit⟩
  time := ⟨s.timestamp.time.isTimeShape_logText, s.timestamp.time.isWord_logText⟩
  plain := by simp [StopLine.form]
  annotations := by
    intro m hm
    obtain rfl := List.mem_singleton.mp hm
    exact legible_stop s.stop
  remark := by
    intro r hrem
    obtain ⟨text, htext, rfl⟩ := Option.map_eq_some_iff.mp hrem
    exact hr text htext

/-! ## Reading the marks of an entry -/

/-- Tokens that say the marks make the second entry of the first, without a warning. -/
def Entry.Takes (e : Entry) (marks : List Mark) (after : Entry) : Prop :=
  ∀ tokens : List Token, tokens.map Token.mark = marks → e.addAll tokens = .ok (after, [])

namespace Entry.Takes

theorem nil (e : Entry) : e.Takes [] e := by
  intro tokens htokens
  obtain rfl : tokens = [] := by simpa using htokens
  rfl

/-- Marks are taken one after the other. -/
theorem cons {e middle after : Entry} {kind : TokenKind} {text : List Char} {marks : List Mark}
    (hadd : ∀ column, e.add ⟨kind, String.ofList text, column⟩ = .ok (middle, []))
    (hrest : middle.Takes marks after) : e.Takes ((kind, text) :: marks) after := by
  intro tokens htokens
  -- the column of a token says nothing about the entry
  obtain ⟨t, rest, rfl, ht, hmarks⟩ := List.map_eq_cons_iff.mp htokens
  obtain ⟨k, s, column⟩ := t
  simp only [Token.mark, Prod.mk.injEq] at ht
  obtain ⟨rfl, rfl⟩ := ht
  have hone := hadd column
  rw [String.ofList_toList] at hone
  simp only [Entry.addAll, hone, hrest rest hmarks]
  rfl

theorem one {e after : Entry} {kind : TokenKind} {text : List Char}
    (hadd : ∀ column, e.add ⟨kind, String.ofList text, column⟩ = .ok (after, [])) :
    e.Takes [(kind, text)] after :=
  cons hadd (nil after)

theorem append {e middle after : Entry} {first second : List Mark} (h₁ : e.Takes first middle)
    (h₂ : middle.Takes second after) : e.Takes (first ++ second) after := by
  intro tokens htokens
  obtain ⟨ts₁, ts₂, rfl, hts₁, hts₂⟩ := List.map_eq_append_iff.mp htokens
  have h := h₁ ts₁ hts₁
  -- by induction on the tokens of the first part; none of them may have called for a warning
  clear htokens hts₁ h₁
  induction ts₁ generalizing e with
  | nil =>
    obtain rfl : e = middle := by simpa [Entry.addAll] using h
    exact h₂ ts₂ hts₂
  | cons t ts ih =>
    rw [Entry.addAll] at h
    rw [List.cons_append, Entry.addAll]
    cases hadd : e.add t with
    | error cause => simp [hadd] at h
    | ok result =>
      obtain ⟨next, warnings⟩ := result
      simp only [hadd] at h ⊢
      cases hall : next.addAll ts with
      | error fault => simp [hall, bind, Except.bind] at h
      | ok result =>
        obtain ⟨last, more⟩ := result
        simp only [hall, bind, Except.bind, Except.ok.injEq, Prod.mk.injEq,
          List.append_eq_nil_iff] at h
        obtain ⟨rfl, rfl, rfl⟩ := h
        rw [ih hall]
        rfl

/-- An optional field is taken from the mark that is written for it, or left alone. -/
theorem optional {α : Type} (mark : α → Mark) (withField : Option α → Entry) (o : Option α)
    (hadd : ∀ a ∈ o, ∀ column,
      (withField none).add ⟨(mark a).1, String.ofList (mark a).2, column⟩ =
        .ok (withField (some a), [])) :
    (withField none).Takes (o.toList.map mark) (withField o) := by
  cases o with
  | none => exact nil _
  | some a => exact one (hadd a rfl)

/-- Distinct tags are taken in order. -/
theorem tags (e : Entry) (ts : List String) (h : (e.tags ++ ts).Nodup) :
    e.Takes (ts.map fun t => (.tag, t.toList)) { e with tags := e.tags ++ ts } := by
  induction ts generalizing e with
  | nil =>
    rw [List.append_nil]
    exact nil e
  | cons t ts ih =>
    -- a tag that is there already would call for a warning
    have hnew : t ∉ e.tags := by
      intro hmem
      exact (List.nodup_append.mp h).2.2 t hmem t List.mem_cons_self rfl
    have hrest : (e.tags ++ [t] ++ ts).Nodup := by simpa using h
    have htail := ih { e with tags := e.tags ++ [t] } hrest
    simp only [List.append_assoc, List.singleton_append] at htail
    exact cons (fun column => by simp [Entry.add, hnew]) htail

end Entry.Takes

/-! ## Reading back -/

private theorem resumeOfText_word {r : Resume} (h : ∀ n, r = .numbered n → 0 < n ∧ n < indexBound) :
    resumeOfText r.word = .ok r := by
  cases r with
  | latest => rfl
  | previous => rfl
  | numbered n =>
    obtain ⟨hpos, hbound⟩ := h n rfl
    have hdigits : (ofNat n).toList = digits n := by rw [ofNat, String.toList_ofList]
    rw [Resume.word, resumeOfText, if_neg (ofNat_ne (by decide) n),
      if_neg (ofNat_ne (by decide) n), hdigits, readNat?_digits hbound]
    obtain ⟨m, rfl⟩ : ∃ m, n = m + 1 := ⟨n - 1, by omega⟩
    rfl

private theorem ofSuffix?_word {s : State} (h : s ≠ .working) :
    State.ofSuffix? s.word = some s := by
  cases s with
  | working => exact absurd rfl h
  | paused => rfl
  | completed => rfl
  | abandoned => rfl

private theorem remarkOf_of_isRemark {r : List Char} (h : IsRemark r) :
    remarkOf (String.ofList r) = some (String.ofList r) := by
  apply if_neg
  intro hempty
  exact h.ne_nil (by simpa using congrArg String.toList hempty)

/-- The marks of a canonical entry make the entry, from one with nothing but its place. -/
theorem Entry.Canonical.takes {e : Entry} (h : e.Canonical) {ws : List (List Char)}
    (hdescription : e.description.toList = joinWith [' '] ws) (line : Nat) :
    Entry.Takes { timestamp := e.timestamp, description := "", indent := e.indent, line }
      ((e.form ws).marks.tail) { e with line } := by
  obtain ⟨timestamp, description, project, tags, estimate, duration, remark, suffix, resume,
    indent, line'⟩ := e
  have htags : ([] ++ tags).Nodup := h.nodup
  have hestimate : ∀ n ∈ estimate, 0 < n ∧ n < minutesBound := h.estimate
  have hduration : ∀ n ∈ duration, 0 < n ∧ n < minutesBound := h.duration
  have hsuffix : ∀ s ∈ suffix, s ≠ .working := h.suffix
  have hresume : ∀ n, resume = some (.numbered n) → 0 < n ∧ n < indexBound := h.resume
  have hremark : ∀ r ∈ remark, IsRemark r.toList := h.remark
  simp only at hdescription
  -- one step for each field, in the order of the line
  have h₁ : Entry.Takes { timestamp, description := "", indent, line }
      (if ws = [] then [] else [(.description, joinWith [' '] ws)])
      { timestamp, description, indent, line } := by
    split
    · next hnil =>
      obtain rfl : description = "" := String.toList_inj.mp (by simp [hdescription, hnil, joinWith])
      exact .nil _
    · exact .one fun column => by rw [← hdescription, String.ofList_toList]; rfl
  have h₂ := Entry.Takes.optional (fun p => (.project, p.toList))
    (fun project => { timestamp, description, project, indent, line }) project <| by
      intro p _ column
      simp [Entry.add]
  have h₃ := Entry.Takes.tags { timestamp, description, project, indent, line } tags htags
  have h₄ := Entry.Takes.optional (fun n => (.estimate, (Duration.format n).toList))
    (fun estimate => { timestamp, description, project, tags, estimate, indent, line })
    estimate <| by
      intro n hn column
      obtain ⟨hpos, hbound⟩ := hestimate n hn
      simp [Entry.add, Duration.parse_format hpos hbound]
  have h₅ := Entry.Takes.optional (fun n => (.duration, (Duration.format n).toList))
    (fun duration => { timestamp, description, project, tags, estimate, duration, indent, line })
    duration <| by
      intro n hn column
      obtain ⟨hpos, hbound⟩ := hduration n hn
      simp [Entry.add, Duration.parse_format hpos hbound]
  have h₆ := Entry.Takes.optional (fun s => (.suffix, s.word.toList))
    (fun suffix =>
      { timestamp, description, project, tags, estimate, duration, suffix, indent, line })
    suffix <| by
      intro s hs column
      simp [Entry.add, ofSuffix?_word (hsuffix s hs)]
  have h₇ := Entry.Takes.optional (fun r => (.resume, r.word.toList))
    (fun resume =>
      { timestamp, description, project, tags, estimate, duration, suffix, resume, indent, line })
    resume <| by
      intro r hr column
      have hread := resumeOfText_word fun n hn => hresume n (hn ▸ hr)
      simp [Entry.add, hread]
  have h₈ := Entry.Takes.optional (fun r => (.remark, r.toList))
    (fun remark =>
      { timestamp, description, project, tags, estimate, duration, remark, suffix, resume, indent,
        line })
    remark <| by
      intro r hr column
      have hread := remarkOf_of_isRemark (hremark r hr)
      rw [String.ofList_toList] at hread
      simp [Entry.add, hread]
  have hall := h₁.append (h₂.append (h₃.append (h₄.append (h₅.append (h₆.append (h₇.append h₈))))))
  simpa [LineForm.marks, LineForm.description, Entry.form, Entry.annotations,
    Option.toList_map, Function.comp_def] using hall

/-! ## Reading the line of an event -/

/-- None of the annotations of an entry is a stop. -/
theorem Entry.kind_ne_stop {e : Entry} {ws : List (List Char)} {m : Mark}
    (hm : m ∈ (e.form ws).marks.tail) : m.1 ≠ .stop := by
  rw [LineForm.marks, List.cons_append, List.cons_append, List.tail_cons] at hm
  simp only [Entry.form, Entry.annotations, List.mem_append, List.mem_map] at hm
  rcases hm with (hm | ((((⟨_, -, rfl⟩ | ⟨_, -, rfl⟩) | ⟨_, -, rfl⟩) | ⟨_, -, rfl⟩) |
    ⟨_, -, rfl⟩) | ⟨_, -, rfl⟩) | ⟨_, -, rfl⟩
  · simp [LineForm.kind_of_mem_description hm]
  all_goals simp

/-- The marks of a canonical entry make the entry. -/
theorem Entry.Canonical.eventOfTokens_eq {e : Entry} (h : (Event.entry e).Canonical)
    {ws : List (List Char)} (hdescription : e.description.toList = joinWith [' '] ws)
    {tokens : List Token} (htokens : tokens.map Token.mark = (e.form ws).marks.tail) (line : Nat) :
    eventOfTokens e.timestamp e.indent line tokens = .ok (.entry { e with line }, []) := by
  obtain ⟨hcanonical, hbare⟩ := h
  -- nothing in the line of an entry is read as a stop
  have hstop : findStop? tokens = none := by
    apply findStop?_eq_none_iff.mpr
    intro t ht
    have hmem : t.mark ∈ (e.form ws).marks.tail := htokens ▸ List.mem_map_of_mem ht
    exact Entry.kind_ne_stop hmem
  have hadd := hcanonical.takes hdescription line tokens htokens
  have hnotBare : ¬ (Entry.isBare { e with line } && e.resume.isNone) = true := hbare
  rw [eventOfTokens, hstop]
  simp only [hadd, bind, Except.bind]
  rw [if_neg hnotBare]

/-- The marks of a stop make the stop. -/
theorem StopLine.eventOfTokens_eq {s : StopLine} (hr : ∀ r ∈ s.remark, IsRemark r.toList)
    {tokens : List Token} (htokens : tokens.map Token.mark = s.form.marks.tail) (line : Nat) :
    eventOfTokens s.timestamp s.indent line tokens = .ok (.stop { s with line }, []) := by
  obtain ⟨stop, timestamp, remark, indent, line'⟩ := s
  simp only [LineForm.marks, LineForm.description, StopLine.form, if_true,
    List.cons_append, List.tail_cons, List.nil_append] at htokens
  obtain ⟨t, rest, rfl, ht, hrest⟩ := List.map_eq_cons_iff.mp htokens
  obtain ⟨kind, text, column⟩ := t
  simp only [Token.mark, Prod.mk.injEq, String.toList_inj] at ht
  obtain ⟨rfl, rfl⟩ := ht
  -- only the remark stands beside the stop
  have hremark : stopRemark stop none rest = .ok remark := by
    cases remark with
    | none =>
      obtain rfl : rest = [] := by simpa using hrest
      rfl
    | some r =>
      obtain ⟨u, more, rfl, hu, hmore⟩ := List.map_eq_cons_iff.mp hrest
      obtain rfl : more = [] := by simpa using hmore
      obtain ⟨kind, text, column⟩ := u
      simp only [Token.mark, Prod.mk.injEq, String.toList_inj] at hu
      obtain ⟨rfl, rfl⟩ := hu
      have hread := remarkOf_of_isRemark (hr text rfl)
      rw [String.ofList_toList] at hread
      simp [stopRemark, hread]
  rw [eventOfTokens, findStop?, if_pos rfl]
  simp only [Stop.ofWord?_word, List.nil_append, hremark]
  rfl

/-- A canonical line whose tokens make an event is read as the event, and the clock moves on to
its timestamp. -/
theorem LineForm.Legible.readLine_text {f : LineForm} (hf : f.Legible) {t : DateTime}
    (ht : t.Canonical) (hstamp : f.stamp.2 = t.logText) {event : Event} {n : Nat}
    (hevent : ∀ tokens : List Token, tokens.map Token.mark = f.marks.tail →
      eventOfTokens t f.indent n tokens = .ok (event, []))
    (clock : Clock) :
    Log.readLine clock n f.text = (clock.advance t, { events := [event] }) := by
  obtain ⟨tokens, hline, hmarks⟩ := LineForm.read hf
  obtain ⟨stamp, rest, rfl, hfirst, hrest⟩ := List.map_eq_cons_iff.mp hmarks
  obtain ⟨kind, text, column⟩ := stamp
  obtain ⟨rfl, htext⟩ : kind = .timestamp ∧ text.toList = t.logText := by
    rw [← hstamp]
    exact Prod.mk.inj hfirst
  -- a line with a date of its own never seems to run backwards
  have hbackwards : clock.backwards n t true = [] := by
    unfold Clock.backwards
    split <;> simp
  have hassemble : clock.assemble n ⟨f.indent, ⟨.timestamp, text, column⟩ :: rest⟩ =
      (clock.advance t, .ok (event, [])) := by
    simp only [Clock.assemble, htext, clock.moment_logText ht, hevent rest hrest, hbackwards,
      List.nil_append]
  simp only [Log.readLine, hline, hassemble]

/-- The line of a canonical event is one line. -/
theorem Event.Canonical.isLine {event : Event} (h : event.Canonical) :
    event.text.toList ≠ [] ∧ '\n' ∉ event.text.toList ∧
      event.text.toList.getLast? ≠ some '\r' := by
  cases event with
  | entry e =>
    obtain ⟨ws, hws, hdescription⟩ := h.1.description
    rw [Event.text, Entry.toList_text hws hdescription]
    exact (h.1.form_legible hws).isLine
  | stop s =>
    rw [Event.text, StopLine.toList_text]
    exact (StopLine.form_legible h.1 h.2).isLine

/-- The line of a canonical event is read as the event. -/
theorem Event.readLine_text {event : Event} (h : event.Canonical) (clock : Clock) (n : Nat) :
    Log.readLine clock n event.text.toList =
      (clock.advance event.timestamp, { events := [event.atLine n] }) := by
  cases event with
  | entry e =>
    obtain ⟨ws, hws, hdescription⟩ := h.1.description
    rw [Event.text, Entry.toList_text hws hdescription]
    exact (h.1.form_legible hws).readLine_text h.1.timestamp (DateTime.logText_eq _).symm
      (fun tokens htokens => Entry.Canonical.eventOfTokens_eq h hdescription htokens n) clock
  | stop s =>
    rw [Event.text, StopLine.toList_text]
    exact (StopLine.form_legible h.1 h.2).readLine_text h.1 (DateTime.logText_eq _).symm
      (fun tokens htokens => StopLine.eventOfTokens_eq h.2 htokens n) clock

end Daybook
