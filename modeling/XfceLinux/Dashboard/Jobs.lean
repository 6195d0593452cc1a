import XfceLinux.Lib.Since
import XfceLinux.Dashboard.Progress

/-!
# The job table

`active` and `completed` are kept up to date line by line. What they mean can be said from the
lines alone: a job is active when, in the present sub-run, a START line of it is not followed
by a line that ends it (`Running`), and no more jobs have failed or are active than were
started since the header (`launches`). `job_table` is the invariant of all logs.

The dict of a failure is shared by `completed` and `failures`, and a placeholder is
overwritten in place. `Identities` keeps such a write off the records of successful builds.
-/

namespace XfceLinux.Dashboard

open Lib Lib.Text Relation

/-! ## Identities of records -/

/-- The identities and results of the completed builds. -/
def State.marks (s : State) : List (Nat × Status) := s.completed.map fun c => (c.oid, c.status)

/-- The identities of the failures. -/
def State.entries (s : State) : List Nat := s.failures.map (·.oid)

/-- What is said of `completed` survives a write that keeps identities and results. -/
theorem marks_writeThrough {s : State} {oid : Nat} {g : Item → Item}
    (h : ∀ c ∈ s.completed, c.oid = oid → (g c).oid = c.oid ∧ (g c).status = c.status) :
    (s.writeThrough oid g).marks = s.marks := by
  unfold State.marks State.writeThrough
  rw [List.map_map]
  apply List.map_congr_left
  intro c hc
  simp only [Function.comp_apply]
  split
  · rename_i hoid
    obtain ⟨hg, hstatus⟩ := h c hc hoid
    rw [hg, hstatus]
  · rfl

/-- New records get new identities, and a completed build that shares its record with
`failures` has failed. -/
structure Identities (s : State) : Prop where
  marked : ∀ m ∈ s.marks, m.1 < s.nextOid
  entered : ∀ o ∈ s.entries, o < s.nextOid
  shared : ∀ m ∈ s.marks, m.1 ∈ s.entries → m.2 = .failure

theorem Identities.congr {s t : State} (h : Identities s) (hm : t.marks = s.marks)
    (he : t.entries = s.entries) (ho : t.nextOid = s.nextOid) : Identities t :=
  ⟨hm ▸ ho ▸ h.marked, he ▸ ho ▸ h.entered, hm ▸ he ▸ h.shared⟩

theorem identities_empty {s : State} (hc : s.completed = []) (hf : s.failures = []) :
    Identities s := by
  constructor <;> simp [State.marks, State.entries, hc, hf]

/-- A new record, which may be entered into `failures` when it is one of a failure. -/
theorem Identities.fresh {s t : State} (h : Identities s) (new : List (Nat × Status))
    (entered : List Nat) (hm : t.marks = s.marks ++ new) (he : t.entries = s.entries ++ entered)
    (ho : t.nextOid = s.nextOid + 1) (hnew : ∀ m ∈ new, m.1 = s.nextOid)
    (hentered : ∀ o ∈ entered, o = s.nextOid ∧ ∀ m ∈ new, m.2 = .failure) : Identities t where
  marked m hmem := by
    rw [hm] at hmem
    rw [ho]
    rcases List.mem_append.mp hmem with hold | hmem
    · have := h.marked m hold
      omega
    · have := hnew m hmem
      omega
  entered o hmem := by
    rw [he] at hmem
    rw [ho]
    rcases List.mem_append.mp hmem with hold | hmem
    · have := h.entered o hold
      omega
    · have := (hentered o hmem).1
      omega
  shared m hmem hshared := by
    rw [hm] at hmem
    rw [he] at hshared
    rcases List.mem_append.mp hmem with hold | hmem <;>
      rcases List.mem_append.mp hshared with hentry | hentry
    · exact h.shared m hold hentry
    · have := h.marked m hold
      have := (hentered _ hentry).1
      omega
    · have := h.entered _ hentry
      have := hnew m hmem
      omega
    · exact (hentered _ hentry).2 m hmem

/-! ## What the updates do to them -/

theorem setFailLog_marks (path : Str) (s : State) : (setFailLog path s).marks = s.marks := by
  unfold setFailLog
  split
  · rfl
  · exact marks_writeThrough fun c _ _ => ⟨rfl, rfl⟩

theorem setFailLog_entries (path : Str) (s : State) :
    (setFailLog path s).entries = s.entries := map_setFailLog (fun _ => rfl) s

theorem recordFailure_entries (item : Item) (s : State) :
    (recordFailure item s).entries = s.entries ∨
      (recordFailure item s).entries = s.entries ++ [item.oid] := by
  unfold recordFailure
  split
  · exact .inl rfl
  · split
    · have hkeep : ∀ f : Item, (item.overwrite f).oid = f.oid := fun _ => rfl
      exact .inl (Dict.map_modifyFirst hkeep s.failures)
    · exact .inr (by simp [State.entries])

/-- The overwritten placeholder is not the record of a successful build. -/
theorem recordFailure_marks {item : Item} {s : State} (hitem : item.status = .failure)
    (h : ∀ m ∈ s.marks, m.1 ∈ s.entries → m.2 = .failure) :
    (recordFailure item s).marks = s.marks := by
  unfold recordFailure
  split
  · rfl
  split
  · rename_i f hf
    apply marks_writeThrough
    intro c hc hoid
    have hentry : c.oid ∈ s.entries := hoid ▸ List.mem_map_of_mem (List.mem_of_find?_eq_some hf)
    have hmark : (c.oid, c.status) ∈ s.marks := List.mem_map_of_mem hc
    exact ⟨rfl, hitem.trans (h _ hmark hentry).symm⟩
  · rfl

/-- A failure of an active build. -/
theorem fail_effect {s : State} (h : Identities s) (element : Str) {hash : Str} (clock : Clock)
    {entry : Job} (hentry : Dict.get? s.active hash = some entry) :
    (fail element hash clock s).active = Dict.pop s.active hash ∧
    (fail element hash clock s).successCount = s.successCount ∧
    (fail element hash clock s).nextOid = s.nextOid + 1 ∧
    (fail element hash clock s).marks = s.marks ++ [(s.nextOid, .failure)] ∧
    ((fail element hash clock s).entries = s.entries ∨
      (fail element hash clock s).entries = s.entries ++ [s.nextOid]) := by
  obtain ⟨item, t, -, -, hstatus, hoid, ht, hfail⟩ := fail_active hentry element clock
  have hmarks : t.marks = s.marks ++ [(s.nextOid, .failure)] := by
    simp [State.marks, ht, hoid, hstatus]
  have hentries : t.entries = s.entries := by rw [ht]; rfl
  have hshared : ∀ m ∈ t.marks, m.1 ∈ t.entries → m.2 = .failure := by
    intro m hm he
    rw [hmarks, List.mem_append, List.mem_singleton] at hm
    rw [hentries] at he
    rcases hm with hm | rfl
    · exact h.shared m hm he
    · rfl
  have hrecorded := recordFailure_marks hstatus hshared
  have hentered := recordFailure_entries item t
  rw [hoid, hentries] at hentered
  rw [hmarks] at hrecorded
  rw [hfail]
  refine ⟨?_, ?_, ?_, hrecorded, hentered⟩ <;> rw [ht]

theorem done_marks (element hash : Str) (clock : Clock) (s : State) :
    (done element hash clock s).marks = s.marks ++ [(s.nextOid, .success)] := by
  simp [done, State.marks]

theorem Identities.pipelineDone {s : State} (h : Identities s) (time : ℚ) (clean : Str) :
    Identities (pipelineDone time clean s) := by
  have hsub : (Dashboard.pipelineDone time clean s).entries.Sublist s.entries := by
    simp only [State.entries, Dashboard.pipelineDone]
    split
    · exact List.Sublist.map _ List.filter_sublist
    · exact .refl _
  exact ⟨h.marked, fun o ho => h.entered o (hsub.subset ho),
    fun m hm ho => h.shared m hm (hsub.subset ho)⟩

theorem Identities.addFailureElem {s : State} (h : Identities s) (elem : Str) :
    Identities (addFailureElem elem s) := by
  unfold Dashboard.addFailureElem
  dsimp only
  split
  · exact h.congr rfl rfl rfl
  · exact h.fresh [] [s.nextOid] (by simp [State.marks])
      (by simp [State.entries, placeholder]) rfl (by simp) (by simp)

theorem Identities.done {s : State} (h : Identities s) (element hash : Str) (clock : Clock) :
    Identities (done element hash clock s) :=
  h.fresh _ [] (done_marks element hash clock s) (by simp [Dashboard.done, State.entries]) rfl
    (by simp) (by simp)

theorem Identities.fail {s : State} (h : Identities s) (element hash : Str) (clock : Clock) :
    Identities (fail element hash clock s) := by
  cases hentry : Dict.get? s.active hash with
  | none =>
    rw [fail_idle clock hentry]
    exact h
  | some entry =>
    obtain ⟨-, -, hoid, hmarks, hentries⟩ := fail_effect h element clock hentry
    rcases hentries with hentries | hentries
    · exact h.fresh _ [] hmarks (by simp [hentries]) hoid (by simp) (by simp)
    · exact h.fresh _ _ hmarks hentries hoid (by simp) (by simp)

theorem Identities.inner {host : Host} {clean : Str} {s t : State} (h : Identities s)
    (hst : Inner host clean s t) : Identities t := by
  cases hst with
  | queue n =>
    unfold State.update backfillFailures
    split <;> exact h.congr rfl rfl rfl
  | listed elem => exact (h.addFailureElem elem).congr rfl rfl rfl
  | failLog path =>
    have hoid : (setFailLog path s).nextOid = s.nextOid := by
      unfold setFailLog
      split <;> rfl
    exact h.congr (setFailLog_marks path s) (setFailLog_entries path s) hoid
  | done clock e => exact (h.done e.short e.hash clock).congr rfl rfl rfl
  | fail clock e => exact (h.fail e.short e.hash clock).congr rfl rfl rfl
  | total | recent | start | skipPull | pull => exact h.congr rfl rfl rfl

theorem Identities.line {s : State} (h : Identities s) (host : Host) (l : Line) :
    Identities (afterLine host l.1 l.2 s) :=
  apply_invariant (fun _ _ => identities_empty rfl rfl)
    (fun _ _ _ _ => identities_empty rfl rfl)
    (fun time clean _ hs => (hs.pipelineDone time clean).congr rfl rfl rfl)
    (fun _ _ _ hs hst => hs.inner hst) (.line l.1 l.2) h

/-! ## The meaning of the table -/

/-- The event of a build line. -/
def buildEvent (host : Host) (l : Line) : Option Event :=
  if isHeader l.2 then none
  else (event? host (cleanLine l.2)).bind fun e =>
    if e.action = "build".toList then some e else none

/-- The hash of the job that a START line with a log path starts. -/
def started (host : Host) (l : Line) : Option Str :=
  (buildEvent host l).bind fun e =>
    if e.isTop ∧ e.status = "START".toList then some e.hash else none

/-- The hash of the job that a SUCCESS line with a log path or a FAILURE line ends. -/
def ended (host : Host) (l : Line) : Option Str :=
  (buildEvent host l).bind fun e =>
    if e.isTop ∧ e.status = "SUCCESS".toList ∨ e.status = "FAILURE".toList then some e.hash
    else none

/-- A header, or the end of a sub-run. -/
def isBoundary (l : Line) : Bool := isHeader l.2 || isSummary l.2

/-- Behind the last boundary a START line of the hash is not followed by an end of it. -/
def Running (host : Host) (ls : List Line) (h : Str) : Prop :=
  Since (started host · = some h) (ended host · = some h) (behindLast isBoundary ls)

/-- The number of START lines with a log path behind the last header. -/
def launches (host : Host) (ls : List Line) : Nat :=
  (behindLast (isHeader ·.2) ls).countP fun l => (started host l).isSome

theorem not_running_nil (host : Host) (h : Str) : ¬Running host [] h := not_since_nil

theorem running_snoc {host : Host} {ls : List Line} {l : Line} {h : Str} :
    Running host (ls ++ [l]) h ↔ isBoundary l = false ∧
      (started host l = some h ∨ ended host l ≠ some h ∧ Running host ls h) := by
  rw [Running, behindLast_snoc]
  cases isBoundary l with
  | true => simp [not_since_nil]
  | false => simp [since_snoc, Running]

theorem launches_snoc (host : Host) (ls : List Line) (l : Line) :
    launches host (ls ++ [l]) = if isHeader l.2 then 0
      else launches host ls + if (started host l).isSome then 1 else 0 := by
  rw [launches, behindLast_snoc]
  split
  · rfl
  · rw [List.countP_append, List.countP_singleton, launches]

section BuildLine

variable {host : Host} {l : Line}

theorem buildEvent_event {e : Event} (hh : isHeader l.2 = false)
    (he : event? host (cleanLine l.2) = some e) :
    buildEvent host l = if e.action = "build".toList then some e else none := by
  rw [buildEvent, hh, he]
  rfl

theorem started_event {e : Event} (hh : isHeader l.2 = false)
    (he : event? host (cleanLine l.2) = some e) :
    started host l = if e.effect = .start then some e.hash else none := by
  rw [started, buildEvent_event hh he]
  by_cases hbuild : e.action = "build".toList
  · rw [if_pos hbuild]
    apply if_congr _ rfl rfl
    rw [Event.effect_start]
    exact ⟨fun h => ⟨hbuild, h⟩, And.right⟩
  · rw [if_neg hbuild, if_neg fun h => hbuild (Event.effect_start.mp h).1]
    rfl

theorem ended_event {e : Event} (hh : isHeader l.2 = false)
    (he : event? host (cleanLine l.2) = some e) :
    ended host l = if e.effect = .done ∨ e.effect = .fail then some e.hash else none := by
  rw [ended, buildEvent_event hh he]
  by_cases hbuild : e.action = "build".toList
  · rw [if_pos hbuild]
    apply if_congr _ rfl rfl
    rw [Event.effect_done, Event.effect_fail, ← and_or_left]
    exact ⟨fun h => ⟨hbuild, h⟩, And.right⟩
  · have hother : ¬(e.effect = .done ∨ e.effect = .fail) := by
      rintro (h | h)
      · exact hbuild (Event.effect_done.mp h).1
      · exact hbuild (Event.effect_fail.mp h).1
    rw [if_neg hbuild, if_neg hother]
    rfl

theorem started_quiet (h : event? host (cleanLine l.2) = none) : started host l = none := by
  unfold started buildEvent
  rw [h]
  split <;> rfl

theorem ended_quiet (h : event? host (cleanLine l.2) = none) : ended host l = none := by
  unfold ended buildEvent
  rw [h]
  split <;> rfl

theorem running_event {e : Event} (hh : isHeader l.2 = false)
    (he : event? host (cleanLine l.2) = some e) {ls : List Line} {h : Str} :
    Running host (ls ++ [l]) h ↔ e.effect = .start ∧ e.hash = h ∨
      ¬((e.effect = .done ∨ e.effect = .fail) ∧ e.hash = h) ∧ Running host ls h := by
  have hboundary : isBoundary l = false := by
    rw [isBoundary, hh, isSummary_of_event he]
    rfl
  have hpresent : ∀ c : Prop, ∀ _ : Decidable c,
      (if c then some e.hash else none) = some h ↔ c ∧ e.hash = h := by
    intro c _
    split <;> simp [*]
  rw [running_snoc, started_event hh he, ended_event hh he, hboundary, Ne, hpresent, hpresent]
  simp

theorem launches_event {e : Event} (hh : isHeader l.2 = false)
    (he : event? host (cleanLine l.2) = some e) (ls : List Line) :
    launches host (ls ++ [l]) = launches host ls + if e.effect = .start then 1 else 0 := by
  rw [launches_snoc, started_event hh he, hh]
  by_cases hstart : e.effect = .start <;> simp [hstart]

end BuildLine

/-! ## The invariant -/

/-- The jobs of the state are those of the lines. -/
structure JobTable (host : Host) (ls : List Line) (s : State) : Prop where
  identities : Identities s
  active : ∀ h, (Dict.get? s.active h).isSome ↔ Running host ls h
  success : s.successCount = s.marks.countP (·.2 = .success)
  bounded : s.marks.countP (·.2 = .failure) + s.active.length ≤ launches host ls

/-- No job starts or ends. -/
def SameJobs (s t : State) : Prop :=
  t.active = s.active ∧ t.successCount = s.successCount ∧ t.marks = s.marks

theorem sameJobs_inner {host : Host} {clean : Str} (h : event? host clean = none) {s t : State}
    (hst : Inner host clean s t) : SameJobs s t := by
  cases hst with
  | start _ e he => cases h.symm.trans he
  | done _ e he => cases h.symm.trans he
  | fail _ e he => cases h.symm.trans he
  | queue n =>
    unfold State.update backfillFailures
    split <;> exact ⟨rfl, rfl, rfl⟩
  | listed elem =>
    unfold State.update addFailureElem
    dsimp only
    split <;> exact ⟨rfl, rfl, rfl⟩
  | failLog path =>
    refine ⟨?_, ?_, setFailLog_marks path s⟩ <;>
      · unfold State.update setFailLog
        split <;> rfl
  | total | recent | skipPull | pull => exact ⟨rfl, rfl, rfl⟩

theorem sameJobs_inners {host : Host} {clean : Str} (h : event? host clean = none) {s t : State}
    (hst : Inners host clean s t) : SameJobs s t := by
  induction hst with
  | refl => exact ⟨rfl, rfl, rfl⟩
  | tail _ hab ih =>
    obtain ⟨hactive, hsuccess, hmarks⟩ := sameJobs_inner h hab
    exact ⟨hactive.trans ih.1, hsuccess.trans ih.2.1, hmarks.trans ih.2.2⟩

namespace JobTable

variable {host : Host} {ls : List Line} {s : State} {l : Line}

theorem header (h : JobTable host ls s) (hh : isHeader l.2) :
    JobTable host (ls ++ [l]) (afterLine host l.1 l.2 s) := by
  have hidentities := h.identities.line host l
  obtain ⟨ts, hts⟩ := afterLine_header hh host l.1 s
  rw [hts] at hidentities ⊢
  refine ⟨hidentities, fun k => ?_, rfl, by simp [State.update, setStart, State.marks]⟩
  rw [running_snoc, isBoundary, hh]
  simp [State.update, setStart, Dict.get?]

theorem summary (h : JobTable host ls s) (hs : isSummary l.2) :
    JobTable host (ls ++ [l]) (afterLine host l.1 l.2 s) := by
  have hidentities := h.identities.line host l
  have hh : isHeader l.2 = false := by
    rw [isSummary, Bool.and_eq_true] at hs
    simpa using hs.1
  rw [afterLine_summary hs] at hidentities ⊢
  refine ⟨hidentities, fun k => ?_, h.success, ?_⟩
  · rw [running_snoc, isBoundary, hh, hs]
    simp [State.update, pipelineDone, Dict.get?]
  · have hbound := h.bounded
    rw [launches_snoc, hh]
    simp only [State.update, pipelineDone, State.marks, List.length_nil] at hbound ⊢
    simp only [Bool.false_eq_true, if_false]
    omega

theorem quiet (h : JobTable host ls s) (hh : isHeader l.2 = false) (hs : isSummary l.2 = false)
    (he : event? host (cleanLine l.2) = none) :
    JobTable host (ls ++ [l]) (afterLine host l.1 l.2 s) := by
  obtain ⟨hactive, hsuccess, hmarks⟩ := sameJobs_inners he (afterLine_inner hh hs host l.1 s)
  refine ⟨h.identities.line host l, fun k => ?_, ?_, ?_⟩
  · rw [hactive, h.active, running_snoc, started_quiet he, ended_quiet he, isBoundary, hh, hs]
    simp
  · rw [hsuccess, hmarks, h.success]
  · rw [hactive, hmarks, launches_snoc, hh, started_quiet he]
    exact h.bounded

theorem start (h : JobTable host ls s) {e : Event} (hh : isHeader l.2 = false)
    (he : event? host (cleanLine l.2) = some e) (heff : e.effect = .start) (log : Str) (time : ℚ) :
    JobTable host (ls ++ [l]) (Dashboard.start e.short e.hash log time s) := by
  refine ⟨h.identities.congr rfl rfl rfl, fun k => ?_, h.success, ?_⟩
  · rw [running_event hh he, heff, Dashboard.start, Dict.get?_set, ← h.active]
    by_cases hk : e.hash = k <;> simp [hk]
  · have hlength := Dict.length_set_le s.active e.hash
      { element := e.short, hash := e.hash, start := time, log }
    have hbound := h.bounded
    rw [launches_event hh he, heff, if_pos rfl]
    simp only [Dashboard.start, State.marks] at hbound ⊢
    omega

theorem done (h : JobTable host ls s) {e : Event} (hh : isHeader l.2 = false)
    (he : event? host (cleanLine l.2) = some e) (heff : e.effect = .done) (clock : Clock) :
    JobTable host (ls ++ [l]) (Dashboard.done e.short e.hash clock s) := by
  have hmarks := done_marks e.short e.hash clock s
  refine ⟨h.identities.done _ _ clock, fun k => ?_, ?_, ?_⟩
  · rw [running_event hh he, heff, Dashboard.done, Dict.get?_pop, ← h.active]
    by_cases hk : e.hash = k <;> simp [hk]
  · rw [hmarks, List.countP_append, ← h.success]
    rfl
  · have hlength := Dict.length_pop_le s.active e.hash
    have hbound := h.bounded
    rw [hmarks, List.countP_append, launches_event hh he, heff]
    simp only [Dashboard.done, List.countP_singleton] at hbound ⊢
    simp only [reduceCtorEq, decide_false, Bool.false_eq_true, if_false]
    omega

theorem fail (h : JobTable host ls s) {e : Event} (hh : isHeader l.2 = false)
    (he : event? host (cleanLine l.2) = some e) (heff : e.effect = .fail) (clock : Clock) :
    JobTable host (ls ++ [l]) (Dashboard.fail e.short e.hash clock s) := by
  have hidentities := h.identities.fail e.short e.hash clock
  cases hentry : Dict.get? s.active e.hash with
  | some entry =>
    obtain ⟨hpop, hsuccess, -, hmarks, -⟩ := fail_effect h.identities e.short clock hentry
    refine ⟨hidentities, fun k => ?_, ?_, ?_⟩
    · rw [running_event hh he, heff, hpop, Dict.get?_pop, ← h.active]
      by_cases hk : e.hash = k <;> simp [hk]
    · rw [hsuccess, hmarks, List.countP_append, h.success]
      rfl
    · have hlength := Dict.length_pop_lt (Option.isSome_iff_exists.mpr ⟨entry, hentry⟩)
      have hbound := h.bounded
      rw [hpop, hmarks, List.countP_append, launches_event hh he, heff]
      simp only [List.countP_singleton, decide_true, if_true, reduceCtorEq, if_false]
      omega
  | none =>
    -- the job is not active, and not running either
    have hidle : ¬Running host ls e.hash := by
      rw [← h.active, hentry]
      simp
    rw [fail_idle clock hentry] at hidentities ⊢
    refine ⟨hidentities, fun k => ?_, h.success, ?_⟩
    · rw [running_event hh he, heff, h.active]
      by_cases hk : e.hash = k
      · rw [hk] at hidle
        simp [hidle]
      · simp [hk]
    · rw [launches_event hh he, heff]
      exact h.bounded

theorem congr {t : State} (h : JobTable host ls s) (hi : Identities t)
    (ha : t.active = s.active) (hs : t.successCount = s.successCount) (hm : t.marks = s.marks) :
    JobTable host ls t :=
  ⟨hi, ha ▸ h.active, hs ▸ hm ▸ h.success, hm ▸ ha ▸ h.bounded⟩

/-- A structured line that starts and ends no job. -/
theorem other (h : JobTable host ls s) {e : Event} (hh : isHeader l.2 = false)
    (he : event? host (cleanLine l.2) = some e)
    (heff : e.effect ≠ .start ∧ e.effect ≠ .done ∧ e.effect ≠ .fail) :
    JobTable host (ls ++ [l]) s := by
  refine ⟨h.identities, fun k => ?_, h.success, ?_⟩
  · rw [running_event hh he, h.active]
    simp [heff]
  · rw [launches_event hh he, if_neg heff.1]
    exact h.bounded

theorem event (h : JobTable host ls s) {e : Event} (hh : isHeader l.2 = false)
    (he : event? host (cleanLine l.2) = some e) :
    JobTable host (ls ++ [l]) (afterLine host l.1 l.2 s) := by
  have hidentities := h.identities.line host l
  rw [afterLine_event hh he, applyEvent_eq] at hidentities ⊢
  have hrecent : JobTable host ls (s.update (addRecent e.recent)) :=
    h.congr (h.identities.congr rfl rfl rfl) rfl rfl rfl
  cases heff : e.effect with
  | start => exact (hrecent.start hh he heff _ _).congr (heff ▸ hidentities) rfl rfl rfl
  | done => exact (hrecent.done hh he heff _).congr (heff ▸ hidentities) rfl rfl rfl
  | fail => exact (hrecent.fail hh he heff _).congr (heff ▸ hidentities) rfl rfl rfl
  | skipPull | pull | nothing =>
    exact (hrecent.other hh he (by simp [heff])).congr (heff ▸ hidentities) rfl rfl rfl

/-- Every line keeps the table up to date. -/
theorem line (h : JobTable host ls s) (l : Line) :
    JobTable host (ls ++ [l]) (afterLine host l.1 l.2 s) := by
  cases hh : isHeader l.2 with
  | true => exact h.header hh
  | false =>
    cases hs : isSummary l.2 with
    | true => exact h.summary hs
    | false =>
      cases he : event? host (cleanLine l.2) with
      | none => exact h.quiet hh hs he
      | some e => exact h.event hh he

end JobTable

theorem jobTable_run (host : Host) (ls : List Line) : JobTable host ls (runLines host ls {}) := by
  induction ls using List.reverseRecOn with
  | nil =>
    refine ⟨identities_empty rfl rfl, fun h => ?_, rfl, le_rfl⟩
    exact iff_of_false (by simp [runLines, Dict.get?]) (not_running_nil host h)
  | append_singleton ls l ih =>
    rw [runLines_append]
    exact ih.line l

/-- **The job table.** After any lines, a hash is a key of `active` if and only if behind the
last header or Pipeline Summary a START line of it is not followed by a line that ends it;
`success_count` is the number of successful builds in `completed`; and the failed builds in
`completed` and the active ones are no more than the START lines behind the last header. -/
theorem job_table (host : Host) (ls : List Line) :
    (∀ h, h ∈ (runLines host ls {}).active.map (·.1) ↔ Running host ls h) ∧
    (runLines host ls {}).successCount =
      (runLines host ls {}).completed.countP (·.status = .success) ∧
    (runLines host ls {}).completed.countP (·.status = .failure) +
      (runLines host ls {}).active.length ≤ launches host ls := by
  have htable := jobTable_run host ls
  have hcount : ∀ st : Status, (runLines host ls {}).marks.countP (·.2 = st) =
      (runLines host ls {}).completed.countP (·.status = st) := by
    intro st
    rw [State.marks, List.countP_map]
    rfl
  refine ⟨fun h => ?_, ?_, ?_⟩
  · rw [← Dict.isSome_get?]
    exact htable.active h
  · rw [← hcount]
    exact htable.success
  · rw [← hcount]
    exact htable.bounded

end XfceLinux.Dashboard
