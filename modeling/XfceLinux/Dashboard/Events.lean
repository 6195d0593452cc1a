import XfceLinux.Dashboard.RootCause

/-!
# Structured lines

A structured line starts with a bracket, so none of the expressions for summary lines
matches it, and a call of `parse_line` for it is `applyEvent` (`afterLine_event`). What
`applyEvent` does besides the recent log is one of five effects.
-/

namespace XfceLinux.Dashboard

open Lib Lib.Text Lib.Regex

/-! ## No other expression matches -/

theorem bracket_of_event {host : Host} {clean : Str} {e : Event}
    (h : event? host clean = some e) : ∃ r, clean = '[' :: r := by
  obtain ⟨m, hm, -⟩ := Option.map_eq_some_iff.mp h
  have hsome : (matchStart lineRe clean).isSome := by rw [hm]; rfl
  obtain ⟨d, hd⟩ := matchStart_isSome.mp hsome
  rw [lineRe, mem_run_cat_cons] at hd
  obtain ⟨a, ha, hd⟩ := hd
  rw [mem_run_bos] at ha
  obtain ⟨-, rfl⟩ := ha
  rw [mem_run_cat_cons] at hd
  obtain ⟨b, hb, -⟩ := hd
  obtain ⟨r, hr, -⟩ := mem_run_lit.mp hb
  exact ⟨r, hr⟩

/-- An expression that starts with white space does not match at a bracket. -/
theorem matchStart_indented (rs : List Re) (r : Str) :
    matchStart (cat (.bos :: plus space :: rs)) ('[' :: r) = none := by
  rw [← Option.not_isSome_iff_eq_none, matchStart_isSome]
  rintro ⟨d, hd⟩
  rw [mem_run_cat_cons] at hd
  obtain ⟨a, ha, hd⟩ := hd
  rw [mem_run_bos] at ha
  obtain ⟨-, rfl⟩ := ha
  rw [mem_run_cat_cons] at hd
  obtain ⟨b, hb, -⟩ := hd
  obtain ⟨u, t, hut, hne, hspace, -⟩ := mem_run_plus_set.mp hb
  obtain ⟨c, u, rfl⟩ := List.exists_cons_of_ne_nil hne
  obtain ⟨rfl, -⟩ := List.cons.inj hut
  exact absurd (hspace '[' List.mem_cons_self) (by decide)

theorem matchStart_pipelineSummary (r : Str) :
    matchStart pipelineSummaryRe ('[' :: r) = none := by
  rw [← Option.not_isSome_iff_eq_none, matchStart_isSome]
  rintro ⟨d, hd⟩
  rw [pipelineSummaryRe, mem_run_cat_cons] at hd
  obtain ⟨a, ha, hd⟩ := hd
  rw [mem_run_bos] at ha
  obtain ⟨-, rfl⟩ := ha
  rw [mem_run_cat_cons] at hd
  obtain ⟨b, hb, -⟩ := hd
  obtain ⟨t, ht, -⟩ := mem_run_lit.mp hb
  exact absurd (List.cons.inj ht).1 (by decide)

theorem isSummary_of_event {host : Host} {raw : Str} {e : Event}
    (h : event? host (cleanLine raw) = some e) : isSummary raw = false := by
  obtain ⟨r, hr⟩ := bracket_of_event h
  rw [isSummary, hr, matchStart_pipelineSummary]
  exact Bool.and_false _

theorem afterLine_event {host : Host} {raw : Str} {e : Event} (hh : isHeader raw = false)
    (h : event? host (cleanLine raw) = some e) (clock : Clock) (s : State) :
    afterLine host clock raw s = applyEvent host clock e s := by
  obtain ⟨r, hr⟩ := bracket_of_event h
  have htotal : parseTotal host (cleanLine raw) s = .ok s := by
    rw [parseTotal, hr, summaryTotalRe, matchStart_indented]
  have hqueue : parseQueue host (cleanLine raw) s = .ok s := by
    rw [parseQueue, hr, summaryQueueRe, matchStart_indented]
  have hblock : parseFailureBlock host (cleanLine raw) s = s := by
    have helem : failureElem host (cleanLine raw) = none := by
      rw [failureElem, hr, failureElemRe, matchStart_indented]
      rfl
    have hlog : failureLog host (cleanLine raw) = none := by
      rw [failureLog, hr, bstLogPathRe, matchStart_indented]
      rfl
    rw [parseFailureBlock, helem, hlog]
  have hne : cleanLine raw ≠ [] := by simp [hr]
  rw [afterLine, parseLine_inner hh (isSummary_of_event h), if_neg hne, htotal]
  simp only [bind, Except.bind, hqueue, hblock, pure, Except.pure, parseRest, h]

/-! ## Effects -/

/-- A failure is recorded in the ledger, and written through to the completed items. -/
theorem recordFailure_frame (item : Item) (s : State) :
    recordFailure item s = { s with
      failures := (recordFailure item s).failures
      completed := (recordFailure item s).completed } := by
  unfold recordFailure
  split
  · rfl
  · split <;> rfl

theorem fail_idle {s : State} {element hash : Str} (clock : Clock)
    (h : Dict.get? s.active hash = none) : fail element hash clock s = s := by
  rw [fail, h]

/-- The failure of an active job: the job leaves `active`, and its record is entered into
`completed` and into the ledger. -/
theorem fail_active {s : State} {hash : Str} {entry : Job}
    (h : Dict.get? s.active hash = some entry) (element : Str) (clock : Clock) :
    ∃ (item : Item) (t : State), item.element = element ∧ item.hash = hash ∧
      item.status = .failure ∧ item.oid = s.nextOid ∧
      t = { s with
        active := Dict.pop s.active hash
        completed := s.completed ++ [item]
        nextOid := s.nextOid + 1 } ∧
      fail element hash clock s = { t with
        failures := (recordFailure item t).failures
        completed := (recordFailure item t).completed
        failureCount := (recordFailure item t).failures.length
        buildEndTs := clock.second } := by
  let item : Item :=
    { element, hash, duration := truncate (clock.first - entry.start), status := .failure
      log := some entry.log, oid := s.nextOid }
  refine ⟨item, _, rfl, rfl, rfl, rfl, rfl, ?_⟩
  simp only [fail, h]
  rw [recordFailure_frame]

/-- What a structured line does to the build state besides the recent log. -/
inductive Effect where
  | start
  | done
  | fail
  | skipPull
  | pull
  | nothing
deriving DecidableEq, Repr

def Event.effect (e : Event) : Effect :=
  if e.action = "build".toList ∧ e.isTop ∧ e.status = "START".toList then .start
  else if e.action = "build".toList ∧ e.isTop ∧ e.status = "SUCCESS".toList then .done
  else if e.action = "build".toList ∧ e.status = "FAILURE".toList then .fail
  else if e.action = "pull".toList then
    if e.status = "SKIPPED".toList ∧ contains "Pull".toList e.msg then .skipPull
    else if e.status = "SUCCESS".toList ∧ contains "Pull".toList e.msg then .pull
    else .nothing
  else .nothing

/-- The conditions of the branches for build lines exclude each other. -/
theorem Event.effect_cases (e : Event) :
    (e.effect = .start ∧ e.action = "build".toList ∧ e.isTop ∧ e.status = "START".toList) ∨
    (e.effect = .done ∧ e.action = "build".toList ∧ e.isTop ∧ e.status = "SUCCESS".toList) ∨
    (e.effect = .fail ∧ e.action = "build".toList ∧ e.status = "FAILURE".toList) ∨
    ((e.effect ≠ .start ∧ e.effect ≠ .done ∧ e.effect ≠ .fail) ∧
      ¬(e.action = "build".toList ∧ e.isTop ∧ e.status = "START".toList) ∧
      ¬(e.action = "build".toList ∧ e.isTop ∧ e.status = "SUCCESS".toList) ∧
      ¬(e.action = "build".toList ∧ e.status = "FAILURE".toList)) := by
  unfold effect
  split
  · exact .inl ⟨rfl, ‹_›⟩
  split
  · exact .inr (.inl ⟨rfl, ‹_›⟩)
  split
  · exact .inr (.inr (.inl ⟨rfl, ‹_›⟩))
  · refine .inr (.inr (.inr ⟨?_, ‹_›, ‹_›, ‹_›⟩))
    split
    · split
      · simp
      · split <;> simp
    · simp

theorem Event.effect_start {e : Event} : e.effect = .start ↔
    e.action = "build".toList ∧ e.isTop ∧ e.status = "START".toList := by
  rcases e.effect_cases with ⟨heff, hc⟩ | ⟨heff, -, -, hs⟩ | ⟨heff, -, hs⟩ | ⟨heff, hc, -, -⟩
  · exact iff_of_true heff hc
  · exact iff_of_false (by simp [heff]) fun h => absurd (h.2.2.symm.trans hs) (by decide)
  · exact iff_of_false (by simp [heff]) fun h => absurd (h.2.2.symm.trans hs) (by decide)
  · exact iff_of_false heff.1 hc

theorem Event.effect_done {e : Event} : e.effect = .done ↔
    e.action = "build".toList ∧ e.isTop ∧ e.status = "SUCCESS".toList := by
  rcases e.effect_cases with ⟨heff, -, -, hs⟩ | ⟨heff, hc⟩ | ⟨heff, -, hs⟩ | ⟨heff, -, hc, -⟩
  · exact iff_of_false (by simp [heff]) fun h => absurd (h.2.2.symm.trans hs) (by decide)
  · exact iff_of_true heff hc
  · exact iff_of_false (by simp [heff]) fun h => absurd (h.2.2.symm.trans hs) (by decide)
  · exact iff_of_false heff.2.1 hc

theorem Event.effect_fail {e : Event} : e.effect = .fail ↔
    e.action = "build".toList ∧ e.status = "FAILURE".toList := by
  rcases e.effect_cases with ⟨heff, -, -, hs⟩ | ⟨heff, -, -, hs⟩ | ⟨heff, hc⟩ | ⟨heff, -, -, hc⟩
  · exact iff_of_false (by simp [heff]) fun h => absurd (h.2.symm.trans hs) (by decide)
  · exact iff_of_false (by simp [heff]) fun h => absurd (h.2.symm.trans hs) (by decide)
  · exact iff_of_true heff hc
  · exact iff_of_false heff.2.2 hc

/-- The update with an effect. -/
def Effect.apply (host : Host) (clock : Clock) (e : Event) (s : State) : Effect → State
  | .start => s.update (Dashboard.start e.short e.hash (e.hostLog host) clock.first)
  | .done => s.update (Dashboard.done e.short e.hash clock)
  | .fail => s.update (Dashboard.fail e.short e.hash clock)
  | .skipPull => s.update Dashboard.skipPull
  | .pull => s.update Dashboard.pull
  | .nothing => s

theorem applyEvent_eq (host : Host) (clock : Clock) (e : Event) (s : State) :
    applyEvent host clock e s = e.effect.apply host clock e (s.update (addRecent e.recent)) := by
  unfold applyEvent Event.effect
  dsimp only
  split
  · rfl
  split
  · rfl
  split
  · rfl
  split
  · split
    · rfl
    · split <;> rfl
  · rfl

end XfceLinux.Dashboard
