import XfceLinux.Dashboard.Events
import XfceLinux.Dashboard.TailLog

/-!
# The elapsed time of a finished log

A fresh dashboard reads a finished log in one round and takes the modification time of the
file for the end of the build when `build_end_ts` is still unset. Every SUCCESS line has
set it by then, to the time at which the line was read, so the elapsed time of a replay is
that of the last build that ended, on the clock of the replay (`replay_elapsed_iff`).
-/

namespace XfceLinux.Dashboard

open Lib Lib.Text Lib.Lines Lib.Regex Relation

/-! ## The clock at the end of the last build -/

/-- The hashes being built, and the clock when a build ended last. -/
structure EndClock where
  building : Str → Bool
  last : Option ℚ

/-- A structured line for the hash `h`. -/
def EndClock.hear (c : EndClock) (clock : Clock) (h : Str) : Effect → EndClock
  | .start => { c with building := Function.update c.building h true }
  | .done =>
    { building := Function.update c.building h false
      last := some (if c.building h then clock.second else clock.first) }
  | .fail =>
    if c.building h then
      { building := Function.update c.building h false, last := some clock.second }
    else c
  | _ => c

def EndClock.step (host : Host) (c : EndClock) (l : Line) : EndClock :=
  if isSummary l.2 then { c with building := fun _ => false }
  else
    match event? host (cleanLine l.2) with
    | none => c
    | some e => c.hear l.1 e.hash e.effect

/-- The reading of the clock at the last line that ends a build. -/
def endClock (host : Host) (ls : List Line) : Option ℚ :=
  (ls.foldl (EndClock.step host) ⟨fun _ => false, none⟩).last

/-! ## The state follows it -/

/-- What the state says about the lines behind a header with the date `ts`. -/
structure Timed (ts : ℚ) (c : EndClock) (s : State) : Prop where
  start : s.buildStartTs = ts
  active : ∀ h, (Dict.get? s.active h).isSome = c.building h
  ended : ∀ t, c.last = some t → s.buildEndTs = t ∧ t ≠ 0
  succeeded : c.last = none → s.successCount = 0

theorem Timed.congr {ts : ℚ} {c : EndClock} {s t : State} (h : Timed ts c s)
    (hstart : t.buildStartTs = s.buildStartTs) (hactive : t.active = s.active)
    (hend : t.buildEndTs = s.buildEndTs) (hcount : t.successCount = s.successCount) :
    Timed ts c t where
  start := hstart.trans h.start
  active := by rw [hactive]; exact h.active
  ended := by rw [hend]; exact h.ended
  succeeded := by rw [hcount]; exact h.succeeded

/-- A line that is not structured leaves the times alone. -/
theorem Timed.inners {host : Host} {clean : Str} (hnone : event? host clean = none) {ts : ℚ}
    {c : EndClock} {s t : State} (h : Timed ts c s) (hst : Inners host clean s t) :
    Timed ts c t := by
  induction hst with
  | refl => exact h
  | tail _ hstep ih =>
    cases hstep with
    | start _ e he | done _ e he | fail _ e he =>
      rw [hnone] at he
      cases he
    | queue n =>
      simp only [State.update, backfillFailures]
      split <;> exact ih.congr rfl rfl rfl rfl
    | listed elem =>
      simp only [State.update, addFailureElem]
      split <;> exact ih.congr rfl rfl rfl rfl
    | failLog path =>
      simp only [State.update, setFailLog]
      split <;> exact ih.congr rfl rfl rfl rfl
    | total | recent | skipPull | pull => exact ih.congr rfl rfl rfl rfl

theorem Timed.fail {ts : ℚ} {c : EndClock} {s : State} (h : Timed ts c s) (clock : Clock)
    (hclock : 0 < clock.second) (element hash : Str) :
    Timed ts (c.hear clock hash .fail) (fail element hash clock s) := by
  have hactive := h.active hash
  cases hentry : Dict.get? s.active hash with
  | none =>
    rw [hentry] at hactive
    rw [fail_idle clock hentry, EndClock.hear, ← hactive]
    exact h
  | some entry =>
    rw [hentry] at hactive
    obtain ⟨item, t, -, -, -, -, rfl, hfail⟩ := fail_active hentry element clock
    rw [hfail, EndClock.hear, ← hactive]
    simp only [Option.isSome_some, if_true]
    refine ⟨?_, ?_, ?_, fun hnone => by cases hnone⟩
    · exact h.start
    · intro k
      simp only [Dict.get?_pop, Function.update_apply]
      by_cases hk : hash = k
      · simp [hk]
      · rw [if_neg hk, if_neg (Ne.symm hk)]
        exact h.active k
    · intro t ht
      obtain rfl : _ = t := Option.some.inj ht
      exact ⟨rfl, hclock.ne'⟩

theorem Timed.apply {ts : ℚ} {c : EndClock} {s : State} (h : Timed ts c s) {host : Host}
    {clock : Clock} (hclock : 0 < clock.first ∧ 0 < clock.second) (e : Event) :
    Timed ts (c.hear clock e.hash e.effect) (e.effect.apply host clock e s) := by
  cases e.effect with
  | nothing => exact h
  | skipPull | pull => exact h.congr rfl rfl rfl rfl
  | fail => exact (h.fail clock hclock.2 e.short e.hash).congr rfl rfl rfl rfl
  | start =>
    refine ⟨h.start, ?_, h.ended, h.succeeded⟩
    intro k
    simp only [EndClock.hear, Effect.apply, State.update, Dashboard.start, Dict.get?_set,
      Function.update_apply]
    by_cases hk : e.hash = k
    · simp [hk]
    · rw [if_neg hk, if_neg (Ne.symm hk)]
      exact h.active k
  | done =>
    refine ⟨h.start, ?_, ?_, fun hnone => by cases hnone⟩
    · intro k
      simp only [EndClock.hear, Effect.apply, State.update, Dashboard.done, Dict.get?_pop,
        Function.update_apply]
      by_cases hk : e.hash = k
      · simp [hk]
      · rw [if_neg hk, if_neg (Ne.symm hk)]
        exact h.active k
    · intro t ht
      simp only [Effect.apply, State.update, Dashboard.done, h.active]
      obtain rfl : _ = t := Option.some.inj ht
      refine ⟨rfl, ?_⟩
      split
      · exact hclock.2.ne'
      · exact hclock.1.ne'

theorem Timed.pipelineDone {ts : ℚ} {c : EndClock} {s : State} (h : Timed ts c s) (time : ℚ)
    (clean : Str) :
    Timed ts { c with building := fun _ => false } (pipelineDone time clean s) where
  start := h.start
  active _ := rfl
  ended t ht := by
    obtain ⟨hend, hne⟩ := h.ended t ht
    exact ⟨by simp [Dashboard.pipelineDone, hend, hne], hne⟩
  succeeded := h.succeeded

/-- A line that is no header keeps the state in step with the clock. -/
theorem Timed.line {ts : ℚ} {c : EndClock} {s : State} (h : Timed ts c s) {host : Host}
    {l : Line} (hh : isHeader l.2 = false) (hclock : 0 < l.1.first ∧ 0 < l.1.second) :
    Timed ts (c.step host l) (afterLine host l.1 l.2 s) := by
  unfold EndClock.step
  cases hs : isSummary l.2 with
  | true =>
    rw [if_pos rfl, afterLine_summary hs]
    exact (h.pipelineDone l.1.first (cleanLine l.2)).congr rfl rfl rfl rfl
  | false =>
    rw [if_neg (by simp)]
    cases he : event? host (cleanLine l.2) with
    | none => exact h.inners he (afterLine_inner hh hs host l.1 s)
    | some e =>
      rw [afterLine_event hh he, applyEvent_eq]
      exact (h.congr (t := s.update (addRecent e.recent)) rfl rfl rfl rfl).apply hclock e

theorem Timed.lines {ts : ℚ} {c : EndClock} {s : State} (h : Timed ts c s) {host : Host}
    {ls : List Line}
    (hls : ∀ l ∈ ls, isHeader l.2 = false ∧ 0 < l.1.first ∧ 0 < l.1.second) :
    Timed ts (ls.foldl (EndClock.step host) c) (runLines host ls s) := by
  induction ls generalizing c s with
  | nil => exact h
  | cons l ls ih =>
    obtain ⟨hh, hclock⟩ := hls l List.mem_cons_self
    exact ih (h.line hh hclock) fun m hm => hls m (List.mem_cons_of_mem l hm)

/-! ## A replay -/

/-- The line is a header with the date `ts`. -/
def HeaderDate (host : Host) (raw : Str) (ts : ℚ) : Prop :=
  ∃ hm, search buildHeaderRe (cleanLine raw) = some hm ∧
    host.strptime (strip isSpace (sub timezoneRe [' '] (hm.group 1))) = some ts

/-- The rounds in which a fresh dashboard reads a file: the first finds and reads it, the
others find nothing to read. The clock is past the epoch. -/
structure Replay where
  clocks : Nat → Clock
  rounds : Nat
  positive : ∀ i, 0 < (clocks i).first ∧ 0 < (clocks i).second

def Replay.events (r : Replay) (mtime : ℚ) : List LogEvent :=
  .stat (some mtime) :: .read r.clocks :: List.replicate r.rounds (.stat (some mtime))

/-- The build state behind the replay of the file `bs`. -/
def Replay.state (r : Replay) (host : Host) (bs : Bytes) (mtime : ℚ) : State :=
  (LogWorld.run host (r.events mtime) { file := some bs }).tailer.state

/-- The lines with the clocks of their calls. -/
def withClocks : (Nat → Clock) → List Str → List Line
  | _, [] => []
  | clocks, l :: ls => (clocks 0, l) :: withClocks (fun i => clocks (i + 1)) ls

/-- The catch-up is over, no job is active and an element has succeeded. -/
def Finished (s : State) : Prop := s.catchingUp = false ∧ s.active = [] ∧ 0 < s.successCount

/-- The whole seconds from the date of the header to the time `t`, as `snapshot` has them. -/
def sinceHeader (ts t : ℚ) : Int := if ts ≠ 0 then truncate (t - ts) else 0

/-- The end of the last build on the clock of the replay, behind the header. -/
def Replay.ended (r : Replay) (host : Host) (ls : List Str) : ℚ :=
  (endClock host (withClocks (fun i => r.clocks (i + 1)) ls)).getD 0

theorem mem_withClocks {clocks : Nat → Clock} {ls : List Str} {l : Line}
    (h : l ∈ withClocks clocks ls) : l.2 ∈ ls ∧ ∃ i, l.1 = clocks i := by
  induction ls generalizing clocks with
  | nil => cases h
  | cons k ls ih =>
    rcases List.mem_cons.mp h with rfl | h
    · exact ⟨List.mem_cons_self, 0, rfl⟩
    · obtain ⟨hmem, i, hi⟩ := ih h
      exact ⟨List.mem_cons_of_mem k hmem, i + 1, hi⟩

theorem parseLines_state {host : Host} {ls : List Str} (h : ∀ l ∈ ls, raises host l = false)
    (clocks : Nat → Clock) (s : State) :
    (parseLines host clocks ls s).2 = runLines host (withClocks clocks ls) s := by
  induction ls generalizing clocks s with
  | nil => rfl
  | cons l ls ih =>
    obtain ⟨t, ht⟩ := parseLine_of_not_raises (h l List.mem_cons_self) (clocks 0) s
    have hafter : afterLine host (clocks 0) l s = t := by rw [afterLine, ht]
    rw [parseLines, ht]
    change (parseLines host (fun i => clocks (i + 1)) ls t).2 = _
    rw [ih (fun m hm => h m (List.mem_cons_of_mem l hm)), ← hafter]
    rfl

theorem step_stat (host : Host) (mtime : ℚ) {bs : Bytes} {t : Tailer}
    (hpos : t.pos = bs.length) :
    LogWorld.step host ⟨some bs, t, none⟩ (.stat (some mtime)) =
      ⟨some bs, t.caughtUp (some mtime), none⟩ := by
  simp [LogWorld.step, Tailer.restart, hpos]

/-- The catch-up ends once. -/
theorem run_replicate_stat_of_done (host : Host) (mtime : ℚ) (k : Nat) {bs : Bytes} {t : Tailer}
    (hpos : t.pos = bs.length) (hdone : ¬ t.state.catchingUp = true) :
    (LogWorld.run host (List.replicate k (.stat (some mtime))) ⟨some bs, t, none⟩).tailer.state =
      t.state := by
  have hkept : t.caughtUp (some mtime) = t := by rw [Tailer.caughtUp, if_neg hdone]
  induction k with
  | zero => rfl
  | succ k ih =>
    rw [List.replicate_succ, LogWorld.run, List.foldl_cons, step_stat host mtime hpos, hkept]
    exact ih

/-- Rounds that find nothing to read leave the state or end the catch-up. -/
theorem run_replicate_stat (host : Host) (mtime : ℚ) (k : Nat) {bs : Bytes} {t : Tailer}
    (hpos : t.pos = bs.length) :
    (LogWorld.run host (List.replicate k (.stat (some mtime))) ⟨some bs, t, none⟩).tailer.state =
        t.state ∨
      (LogWorld.run host (List.replicate k (.stat (some mtime))) ⟨some bs, t, none⟩).tailer.state =
        t.state.update (doneCatchingUp (some mtime)) := by
  by_cases hcatching : t.state.catchingUp = true
  · cases k with
    | zero => exact .inl rfl
    | succ k =>
      right
      have hdone : (t.caughtUp (some mtime)).state =
          t.state.update (doneCatchingUp (some mtime)) := by
        rw [Tailer.caughtUp, if_pos hcatching]
      have hover : ¬ (t.caughtUp (some mtime)).state.catchingUp = true := by
        rw [hdone]
        exact Bool.false_ne_true
      rw [List.replicate_succ, LogWorld.run, List.foldl_cons, step_stat host mtime hpos, ← hdone]
      exact run_replicate_stat_of_done host mtime k ((Tailer.caughtUp_frame _ t).1.trans hpos) hover
  · exact .inl (run_replicate_stat_of_done host mtime k hpos hcatching)

theorem Timed.doneCatchingUp {ts : ℚ} {c : EndClock} {s : State} (h : Timed ts c s)
    (mtime : ℚ) : Timed ts c (s.update (doneCatchingUp (some mtime))) where
  start := h.start
  active := h.active
  ended t ht := by
    obtain ⟨hend, hne⟩ := h.ended t ht
    exact ⟨by simp [State.update, Dashboard.doneCatchingUp, hend, hne], hne⟩
  succeeded := h.succeeded

/-- The branch for the modification time is never taken. -/
theorem Timed.elapsed_eq {ts : ℚ} {c : EndClock} {s : State} (h : Timed ts c s)
    (hfinished : Finished s) (time : ℚ) :
    s.elapsed time = sinceHeader ts (c.last.getD 0) := by
  obtain ⟨hcatching, hactive, hsuccess⟩ := hfinished
  cases hlast : c.last with
  | none =>
    have := h.succeeded hlast
    omega
  | some t =>
    obtain ⟨hend, hne⟩ := h.ended t hlast
    have hlive : s.live = false := by simp [State.live, hactive, hcatching]
    simp [State.elapsed, hlive, hend, hne, h.start, sinceHeader]

theorem run_stat_read (host : Host) (mtime : ℚ) (clocks : Nat → Clock) {bs : Bytes}
    (hbs : bs ≠ []) :
    LogWorld.run host [.stat (some mtime), .read clocks] { file := some bs } =
      ⟨some bs, ({} : Tailer).feed host clocks bs.length bs, none⟩ := by
  have hpos : 0 < bs.length := List.length_pos_iff.mpr hbs
  simp [LogWorld.run, LogWorld.step, Tailer.restart, Tailer.chunk, hpos]

/-- The state behind a replay is that of its lines, before or after the end of the catch-up. -/
theorem Replay.state_cases (r : Replay) (host : Host) (mtime : ℚ) {bs : Bytes}
    {header : Str} {ls : List Str} (hlines : lines '\n' (Utf8.decode bs) = header :: ls)
    (hraises : ∀ l ∈ header :: ls, raises host l = false) :
    r.state host bs mtime = runLines host (withClocks r.clocks (header :: ls)) {} ∨
      r.state host bs mtime =
        (runLines host (withClocks r.clocks (header :: ls)) {}).update
          (doneCatchingUp (some mtime)) := by
  have hbs : bs ≠ [] := by
    rintro rfl
    cases hlines
  have hfeed : (({} : Tailer).feed host r.clocks bs.length bs).state =
      runLines host (withClocks r.clocks (header :: ls)) {} := by
    rw [← parseLines_state hraises, ← hlines]
    rfl
  have hsplit : r.events mtime = [.stat (some mtime), .read r.clocks] ++
      List.replicate r.rounds (.stat (some mtime)) := rfl
  rw [Replay.state, hsplit, LogWorld.run_append, run_stat_read host mtime r.clocks hbs, ← hfeed]
  exact run_replicate_stat host mtime r.rounds rfl

theorem afterLine_headerDate {host : Host} {raw : Str} {ts : ℚ} (h : HeaderDate host raw ts)
    (clock : Clock) (s : State) :
    afterLine host clock raw s = s.update (setStart ts (cleanLine raw)) := by
  obtain ⟨hm, hsearch, hdate⟩ := h
  have hheader : isHeader raw = true := by rw [isHeader, hsearch]; rfl
  have hts : headerTime host clock (hm.group 1) = ts := by rw [headerTime, hdate]; rfl
  rw [afterLine]
  simp only [parseLine, isHeader_ne_nil hheader, hsearch, hts, if_false]

/-- A finished replay reports the time from the header to the end of the last build on its
own clock. -/
theorem Replay.elapsed_eq (r : Replay) {host : Host} {bs : Bytes} {header : Str} {ls : List Str}
    {ts mtime : ℚ} (hlines : lines '\n' (Utf8.decode bs) = header :: ls)
    (hheader : HeaderDate host header ts)
    (hls : ∀ l ∈ ls, isHeader l = false ∧ raises host l = false)
    (hfinished : Finished (r.state host bs mtime)) (time : ℚ) :
    (r.state host bs mtime).elapsed time = sinceHeader ts (r.ended host ls) := by
  have hraises : ∀ l ∈ header :: ls, raises host l = false := by
    intro l hl
    rcases List.mem_cons.mp hl with rfl | hl
    · obtain ⟨hm, hsearch, -⟩ := hheader
      simp [raises, isHeader, hsearch]
    · exact (hls l hl).2
  have hstart : Timed ts ⟨fun _ => false, none⟩ (afterLine host (r.clocks 0) header {}) := by
    rw [afterLine_headerDate hheader]
    exact ⟨rfl, fun _ => rfl, by simp, fun _ => rfl⟩
  have hlater : ∀ l ∈ withClocks (fun i => r.clocks (i + 1)) ls,
      isHeader l.2 = false ∧ 0 < l.1.first ∧ 0 < l.1.second := by
    intro l hl
    obtain ⟨hmem, i, hi⟩ := mem_withClocks hl
    exact ⟨(hls _ hmem).1, hi ▸ r.positive (i + 1)⟩
  have htimed : Timed ts _ (runLines host (withClocks r.clocks (header :: ls)) {}) :=
    hstart.lines hlater
  refine Timed.elapsed_eq ?_ hfinished time
  rcases r.state_cases host mtime hlines hraises with hstate | hstate
  · rw [hstate]
    exact htimed
  · rw [hstate]
    exact htimed.doneCatchingUp mtime

/-- **When a replay shows how long the build took.** Two finished replays of one log report
the same elapsed time, the one from the header to the modification time, if and only if on
both clocks the last build ended that many whole seconds after the header. -/
theorem replay_elapsed_iff (host : Host) (bs : Bytes) (header : Str) (ls : List Str) (ts mtime : ℚ)
    (hlines : lines '\n' (Utf8.decode bs) = header :: ls) (hheader : HeaderDate host header ts)
    (hls : ∀ l ∈ ls, isHeader l = false ∧ raises host l = false) (r₁ r₂ : Replay)
    (h₁ : Finished (r₁.state host bs mtime)) (h₂ : Finished (r₂.state host bs mtime))
    (time₁ time₂ : ℚ) :
    ((r₁.state host bs mtime).elapsed time₁ = (r₂.state host bs mtime).elapsed time₂ ∧
      (r₁.state host bs mtime).elapsed time₁ = truncate (mtime - ts)) ↔
    sinceHeader ts (r₁.ended host ls) = truncate (mtime - ts) ∧
      sinceHeader ts (r₂.ended host ls) = truncate (mtime - ts) := by
  rw [r₁.elapsed_eq hlines hheader hls h₁, r₂.elapsed_eq hlines hheader hls h₂]
  constructor
  · rintro ⟨heq, hmtime⟩
    exact ⟨hmtime, heq ▸ hmtime⟩
  · rintro ⟨hmtime₁, hmtime₂⟩
    exact ⟨hmtime₁.trans hmtime₂.symm, hmtime₁⟩

/-- An interpreter that reads every date as second 100. -/
def Host.dated : Host := { Host.root with strptime := fun _ => some 100 }

/-- A build that starts and succeeds. -/
def finishedLog : Bytes :=
  ascii ("=== Build started at Thu Jan  1 00:01:40 1970 ===\n" ++
    "[00:00:01][abcdef][build:a.bst] START   a/abcdef-build.log\n" ++
    "[00:00:09][abcdef][build:a.bst] SUCCESS a/abcdef-build.log\n")

def finishedLines : List Str :=
  ["[00:00:01][abcdef][build:a.bst] START   a/abcdef-build.log".toList,
    "[00:00:09][abcdef][build:a.bst] SUCCESS a/abcdef-build.log".toList]

def finishedHeader : Str := "=== Build started at Thu Jan  1 00:01:40 1970 ===".toList

/-- A replay all of whose calls read the same clock. -/
def replayAt (time : ℚ) (h : 0 < time) : Replay := ⟨fun _ => ⟨time, time⟩, 1, fun _ => ⟨h, h⟩⟩

theorem finishedHeader_date : HeaderDate Host.dated finishedHeader 100 :=
  ⟨⟨false, [], [(1, "Thu Jan  1 00:01:40 1970".toList)]⟩, by decide +kernel, rfl⟩

instance (s : State) : Decidable (Finished s) :=
  inferInstanceAs (Decidable (s.catchingUp = false ∧ s.active = [] ∧ 0 < s.successCount))

theorem finishedLog_lines :
    lines '\n' (Utf8.decode finishedLog) = finishedHeader :: finishedLines := by decide +kernel

theorem finishedLines_inner :
    ∀ l ∈ finishedLines, isHeader l = false ∧ raises Host.dated l = false := by decide +kernel

theorem finished_at_110 :
    Finished ((replayAt 110 (by norm_num)).state Host.dated finishedLog 110) := by
  decide +kernel

theorem finished_at_500 :
    Finished ((replayAt 500 (by norm_num)).state Host.dated finishedLog 110) := by
  decide +kernel

theorem replay_elapsed_iff_finishedLog :
    (((replayAt 110 (by norm_num)).state Host.dated finishedLog 110).elapsed 200 =
        ((replayAt 500 (by norm_num)).state Host.dated finishedLog 110).elapsed 600 ∧
      ((replayAt 110 (by norm_num)).state Host.dated finishedLog 110).elapsed 200 =
        truncate (110 - 100)) ↔
    sinceHeader 100 ((replayAt 110 (by norm_num)).ended Host.dated finishedLines) =
        truncate (110 - 100) ∧
      sinceHeader 100 ((replayAt 500 (by norm_num)).ended Host.dated finishedLines) =
        truncate (110 - 100) :=
  replay_elapsed_iff Host.dated finishedLog finishedHeader finishedLines 100 110
    finishedLog_lines finishedHeader_date finishedLines_inner (replayAt 110 (by norm_num))
    (replayAt 500 (by norm_num)) finished_at_110 finished_at_500 200 600

/-- Read at second 500, the build took 400 seconds. -/
theorem replay_elapsed_depends_on_clock :
    ¬ ∀ (host : Host) (bs : Bytes) (header : Str) (ls : List Str) (ts mtime : ℚ),
      lines '\n' (Utf8.decode bs) = header :: ls → HeaderDate host header ts →
      (∀ l ∈ ls, isHeader l = false ∧ raises host l = false) → ∀ r₁ r₂ : Replay,
      Finished (r₁.state host bs mtime) → Finished (r₂.state host bs mtime) →
      ∀ time₁ time₂ : ℚ,
        (r₁.state host bs mtime).elapsed time₁ = (r₂.state host bs mtime).elapsed time₂ ∧
          (r₁.state host bs mtime).elapsed time₁ = truncate (mtime - ts) := by
  intro h
  have hsame := h Host.dated finishedLog finishedHeader finishedLines 100 110
    finishedLog_lines finishedHeader_date finishedLines_inner (replayAt 110 (by norm_num))
    (replayAt 500 (by norm_num)) finished_at_110 finished_at_500 200 600
  exact absurd hsame.1 (by decide +kernel)

end XfceLinux.Dashboard
