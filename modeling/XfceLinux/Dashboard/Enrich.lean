import XfceLinux.Lib.Utf8
import XfceLinux.Dashboard.Updates

/-!
# `GET /api/state`

The reply is the snapshot of the state, whose active jobs `_enrich_cmake` completes with the
progress it finds in their logs. The snapshot holds the dicts of `State.active`
themselves, so that the progress stays in the build state and is seen by later requests.
`polling_read_only_iff` says when this does not show.
-/

namespace XfceLinux.Dashboard

open Lib Lib.Text Lib.Regex

/-! ## The request -/

/-- `\[\s*(\d+)/\s*(\d+)\]` -/
def cmakeProgressRe (u : Unicode) : Re :=
  cat [lit "[", .star space, number u 1, lit "/", .star space, number u 2, lit "]"]

/-- `^\s+Compiling\s+\S+\s+v\S` -/
def rustCompileRe : Re :=
  let nonSpace := Re.set fun c => !isSpace c
  cat [.bos, plus space, lit "Compiling", plus space, plus nonSpace, plus space, lit "v", nonSpace]

/-- `^\s+Finished\s` -/
def rustFinishedRe : Re := cat [.bos, plus space, lit "Finished", space]

/-- The contents of the log files; `none` where reading raises. -/
abbrev Files := Str → Option Bytes

/-- `tail`, the last 8192 bytes of a log -/
def logTail (files : Files) (log : Str) : Option Str :=
  if log = [] then none else (files log).map fun bs => Utf8.decode (lastN 8192 bs)

/-- `matches[-1]` -/
def lastMarker (host : Host) (tail : Str) : Option Cur :=
  (findall (cmakeProgressRe host.unicode) tail).getLast?

/-- The part of the loop body of `_enrich_cmake` behind the read, until an exception. -/
def addProgress (host : Host) (tail : Str) (job : Job) : Job :=
  match lastMarker host tail with
  | some m =>
    match parseInt host.unicode (m.group 1) with
    | none => job
    | some done =>
      let job := { job with cmakeDone := some done }
      match parseInt host.unicode (m.group 2) with
      | none => job
      | some total => { job with cmakeTotal := some total }
  | none =>
    match findall rustCompileRe tail with
    | [] => job
    | rust =>
      { job with
        rustCrates := some rust.length, rustDone := some (search rustFinishedRe tail).isNone }

/-- The loop body of `_enrich_cmake` -/
def enrichJob (host : Host) (files : Files) (job : Job) : Job :=
  match logTail files job.log with
  | none => job
  | some tail => addProgress host tail job

/-- `_enrich_cmake`, as it changes the jobs of the state. -/
def enrichCmake (host : Host) (files : Files) (s : State) : State :=
  { s with active := Dict.mapValues (enrichJob host files) s.active }

/-- The reply to `GET /api/state`, taken from the state behind `_enrich_cmake`. -/
def getState {σ : Type} (host : Host) (files : Files) (now : Host.Now σ) (s : State) :
    Snapshot σ :=
  { s.snapshot now with active := Dict.values (enrichCmake host files s).active }

/-! ## Histories -/

inductive Action where
  | call (c : Call)
  | request (files : Files)

def Action.apply (host : Host) : Action → State → State
  | .call c, s => c.apply host s
  | .request files, s => enrichCmake host files s

/-- The state after a history. -/
def runActions (host : Host) (h : List Action) (s : State) : State :=
  h.foldl (fun s a => a.apply host s) s

/-- The calls of a history. -/
def calls (h : List Action) : List Call :=
  h.filterMap fun
    | .call c => some c
    | .request _ => none

/-! ## The state without progress -/

/-- The record that a START line creates. -/
def Job.plain (job : Job) : Job :=
  { job with cmakeDone := none, cmakeTotal := none, rustCrates := none, rustDone := none }

def State.plain (s : State) : State := { s with active := Dict.mapValues Job.plain s.active }

@[simp] theorem update_plain {f : State → State} (h : ∀ s, f s.plain = (f s).plain) (s : State) :
    s.plain.update f = (s.update f).plain := by
  simp only [State.update, h]
  rfl

theorem backfillFailures_plain (failed : Nat) (s : State) :
    backfillFailures failed s.plain = (backfillFailures failed s).plain := by
  simp only [backfillFailures, apply_ite State.plain]
  rfl

theorem addFailureElem_plain (elem : Str) (s : State) :
    addFailureElem elem s.plain = (addFailureElem elem s).plain := by
  simp only [addFailureElem, apply_ite State.plain]
  rfl

theorem setFailLog_plain (path : Str) (s : State) :
    setFailLog path s.plain = (setFailLog path s).plain := by
  cases h : s.failures.reverse.find? Item.lacksLog <;>
    simp [setFailLog, State.plain, State.writeThrough, h]

theorem start_plain (element hash log : Str) (time : ℚ) (s : State) :
    start element hash log time s.plain = (start element hash log time s).plain := by
  have hset := Dict.set_mapValues Job.plain s.active hash
    { element, hash, start := time, log }
  simp only [start, State.plain, ← hset]
  rfl

theorem done_plain (element hash : Str) (clock : Clock) (s : State) :
    done element hash clock s.plain = (done element hash clock s).plain := by
  simp only [done, State.plain, Dict.get?_mapValues, Dict.pop_mapValues]
  cases Dict.get? s.active hash <;> rfl

theorem recordFailure_plain (item : Item) (s : State) :
    recordFailure item s.plain = (recordFailure item s).plain := by
  simp only [recordFailure, apply_ite State.plain]
  cases h : s.failures.find? (Item.isPlaceholder item.element) <;>
    simp [State.plain, State.writeThrough, h]

theorem fail_plain (element hash : Str) (clock : Clock) (s : State) :
    fail element hash clock s.plain = (fail element hash clock s).plain := by
  have hget : Dict.get? s.plain.active hash = (Dict.get? s.active hash).map Job.plain :=
    Dict.get?_mapValues _ _ _
  unfold fail
  rw [hget]
  cases Dict.get? s.active hash with
  | none => rfl
  | some entry =>
    have hpop : Dict.pop s.plain.active hash = Dict.mapValues Job.plain (Dict.pop s.active hash) :=
      Dict.pop_mapValues _ _ _
    simp only [Option.map_some, hpop]
    exact congrArg
      (fun u : State => { u with failureCount := u.failures.length, buildEndTs := clock.second })
      (recordFailure_plain _ { s with
        active := Dict.pop s.active hash, completed := _, nextOid := s.nextOid + 1 })

theorem applyEvent_plain (host : Host) (clock : Clock) (e : Event) (s : State) :
    applyEvent host clock e s.plain = (applyEvent host clock e s).plain := by
  have hrecent := update_plain (f := addRecent e.recent) (fun _ => rfl) s
  unfold applyEvent
  simp only [hrecent, update_plain (start_plain _ _ _ _), update_plain (done_plain _ _ _),
    update_plain (fail_plain _ _ _), update_plain (f := skipPull) (fun _ => rfl),
    update_plain (f := pull) (fun _ => rfl)]
  split_ifs <;> rfl

/-- A result of `parse_line`, without progress. -/
def plainResult : Except State State → Except State State
  | .ok s => .ok s.plain
  | .error s => .error s.plain

theorem parseTotal_plain (host : Host) (clean : Str) (s : State) :
    parseTotal host clean s.plain = plainResult (parseTotal host clean s) := by
  unfold parseTotal
  split
  · rfl
  · split
    · rfl
    · rfl

theorem parseQueue_plain (host : Host) (clean : Str) (s : State) :
    parseQueue host clean s.plain = plainResult (parseQueue host clean s) := by
  unfold parseQueue
  split
  · rfl
  · split
    · split
      · rfl
      · rw [update_plain (backfillFailures_plain _)]
        rfl
    · rfl

theorem parseFailureBlock_plain (host : Host) (clean : Str) (s : State) :
    parseFailureBlock host clean s.plain = (parseFailureBlock host clean s).plain := by
  unfold parseFailureBlock
  cases failureElem host clean <;> cases failureLog host clean <;>
    simp only [update_plain (addFailureElem_plain _), update_plain (setFailLog_plain _)]

theorem parseRest_plain (host : Host) (clock : Clock) (clean : Str) (s : State) :
    parseRest host clock clean s.plain = (parseRest host clock clean s).plain := by
  unfold parseRest
  cases event? host clean with
  | some e => exact applyEvent_plain host clock e s
  | none =>
    simp only [apply_ite State.plain]
    rfl

theorem parseLine_plain (host : Host) (clock : Clock) (raw : Str) (s : State) :
    parseLine host clock raw s.plain = plainResult (parseLine host clock raw s) := by
  unfold parseLine
  dsimp only
  split
  · rfl
  · split
    · rfl
    · split
      · rfl
      · rw [parseTotal_plain]
        cases parseTotal host (cleanLine raw) s with
        | error t => rfl
        | ok t =>
          change (parseQueue host (cleanLine raw) t.plain >>= _) = plainResult
            (parseQueue host (cleanLine raw) t >>= _)
          rw [parseQueue_plain]
          cases parseQueue host (cleanLine raw) t with
          | error u => rfl
          | ok u =>
            change Except.ok (parseRest _ _ _ (parseFailureBlock _ _ u.plain)) =
              Except.ok (parseRest _ _ _ (parseFailureBlock _ _ u)).plain
            rw [parseFailureBlock_plain, parseRest_plain]

theorem afterLine_plain (host : Host) (clock : Clock) (raw : Str) (s : State) :
    afterLine host clock raw s.plain = (afterLine host clock raw s).plain := by
  unfold afterLine
  rw [parseLine_plain]
  cases parseLine host clock raw s <;> rfl

theorem apply_plain (host : Host) (c : Call) (s : State) :
    c.apply host s.plain = (c.apply host s).plain := by
  cases c with
  | line clock raw => exact afterLine_plain host clock raw s
  | reset => rfl

/-! ## What a request writes -/

/-- The keys that `_enrich_cmake` writes. -/
inductive Key where
  | cmakeDone
  | cmakeTotal
  | rustCrates
  | rustDone

theorem Key.forall_iff {P : Key → Prop} :
    (∀ k, P k) ↔ P .cmakeDone ∧ P .cmakeTotal ∧ P .rustCrates ∧ P .rustDone := by
  constructor
  · exact fun h => ⟨h _, h _, h _, h _⟩
  · rintro ⟨h₁, h₂, h₃, h₄⟩ (_ | _ | _ | _)
    exacts [h₁, h₂, h₃, h₄]

/-- The job carries the key. -/
def Job.has (job : Job) : Key → Bool
  | .cmakeDone => job.cmakeDone.isSome
  | .cmakeTotal => job.cmakeTotal.isSome
  | .rustCrates => job.rustCrates.isSome
  | .rustDone => job.rustDone.isSome

/-- The end of the log makes a request write the key. -/
def setsKey (host : Host) (tail : Str) : Key → Bool
  | .cmakeDone => (lastMarker host tail).any fun m => (parseInt host.unicode (m.group 1)).isSome
  | .cmakeTotal => (lastMarker host tail).any fun m =>
    (parseInt host.unicode (m.group 1)).isSome && (parseInt host.unicode (m.group 2)).isSome
  | .rustCrates | .rustDone =>
    (lastMarker host tail).isNone && !(findall rustCompileRe tail).isEmpty

/-- Every key that the job carries is written again by a request that finds `files`. -/
def Refreshed (host : Host) (files : Files) (job : Job) : Prop :=
  ∀ k, job.has k → ∃ tail ∈ logTail files job.log, setsKey host tail k

theorem addProgress_eq_iff (host : Host) (tail : Str) (job : Job) :
    addProgress host tail job = addProgress host tail job.plain ↔
      ∀ k, job.has k → setsKey host tail k := by
  rw [Key.forall_iff]
  unfold addProgress
  cases hm : lastMarker host tail with
  | none =>
    cases hr : findall rustCompileRe tail with
    | nil => cases job; simp [Job.plain, Job.has, setsKey, hm, hr]
    | cons r rs => cases job; simp [Job.plain, Job.has, setsKey, hm, hr]
  | some m =>
    cases hd : parseInt host.unicode (m.group 1) with
    | none => cases job; simp [Job.plain, Job.has, setsKey, hm, hd]
    | some done =>
      cases ht : parseInt host.unicode (m.group 2) with
      | none => cases job; simp [Job.plain, Job.has, setsKey, hm, hd, ht]
      | some total => cases job; simp [Job.plain, Job.has, setsKey, hm, hd, ht]

theorem enrichJob_eq_iff (host : Host) (files : Files) (job : Job) :
    enrichJob host files job = enrichJob host files job.plain ↔ Refreshed host files job := by
  have hlog : job.plain.log = job.log := rfl
  unfold enrichJob Refreshed
  rw [hlog]
  cases logTail files job.log with
  | none =>
    rw [Key.forall_iff]
    cases job
    simp [Job.plain, Job.has]
  | some tail => simpa using addProgress_eq_iff host tail job

theorem plain_addProgress (host : Host) (tail : Str) (job : Job) :
    (addProgress host tail job).plain = job.plain := by
  unfold addProgress
  split
  · split
    · rfl
    · dsimp only
      split <;> rfl
  · split <;> rfl

theorem enrichCmake_plain (host : Host) (files : Files) (s : State) :
    (enrichCmake host files s).plain = s.plain := by
  have hjob : ∀ job, (enrichJob host files job).plain = job.plain := by
    intro job
    unfold enrichJob
    split
    · rfl
    · exact plain_addProgress host _ job
  simp only [enrichCmake, State.plain, Dict.mapValues, List.map_map, Function.comp_def, hjob]

/-- Without the progress, a history leaves what its calls leave. -/
theorem runActions_plain (host : Host) (h : List Action) (s : State) :
    (runActions host h s).plain = runCalls host (calls h) s.plain := by
  induction h generalizing s with
  | nil => rfl
  | cons a h ih =>
    change (runActions host h (a.apply host s)).plain = _
    rw [ih]
    cases a with
    | call c =>
      change _ = runCalls host (c :: calls h) s.plain
      rw [runCalls_cons, apply_plain]
      rfl
    | request files =>
      change runCalls host (calls h) (enrichCmake host files s).plain =
        runCalls host (calls h) s.plain
      rw [enrichCmake_plain]

theorem live_plain (s : State) : s.plain.live = s.live := by
  simp [State.live, State.plain, Dict.mapValues]

theorem elapsed_plain (s : State) (time : ℚ) : s.plain.elapsed time = s.elapsed time := by
  unfold State.elapsed
  rw [live_plain]
  rfl

theorem snapshot_plain {σ : Type} (now : Host.Now σ) (s : State) :
    s.plain.snapshot now =
      { s.snapshot now with active := Dict.values s.plain.active } := by
  simp only [State.snapshot, live_plain, elapsed_plain]
  rfl

theorem getState_eq_iff {σ : Type} (host : Host) (files : Files) (now : Host.Now σ) (s : State) :
    getState host files now s = getState host files now s.plain ↔
      ∀ e ∈ s.active, Refreshed host files e.2 := by
  have hactive : getState host files now s = getState host files now s.plain ↔
      s.active.map (fun e => enrichJob host files e.2) =
        s.active.map fun e => enrichJob host files e.2.plain := by
    unfold getState
    rw [snapshot_plain]
    simp [enrichCmake, State.plain, Dict.values, Dict.mapValues, Function.comp_def]
  rw [hactive, List.map_inj_left]
  simp only [enrichJob_eq_iff]

/-- The job carries keys of both kinds of progress. -/
def Job.mixed (job : Job) : Bool :=
  (job.has .cmakeDone || job.has .cmakeTotal) && (job.has .rustCrates || job.has .rustDone)

theorem enrichJob_plain_not_mixed (host : Host) (files : Files) (job : Job) :
    (enrichJob host files job.plain).mixed = false := by
  unfold enrichJob addProgress
  split
  · simp [Job.mixed, Job.has, Job.plain]
  · split
    · split
      · simp [Job.mixed, Job.has, Job.plain]
      · dsimp only
        split <;> simp [Job.mixed, Job.has, Job.plain]
    · split <;> simp [Job.mixed, Job.has, Job.plain]

/-- **Polling.** After any history, the reply to `GET /api/state` is the one that the calls
of the history alone would lead to, if and only if every key that an active job carries
from earlier requests is written again by this one. Such a reply holds no job with keys of
both kinds. -/
theorem polling_read_only_iff {σ : Type} (host : Host) (h : List Action) (files : Files)
    (now : Host.Now σ) :
    (getState host files now (runActions host h {}) =
        getState host files now (runCalls host (calls h) {}) ↔
      ∀ e ∈ (runActions host h {}).active, Refreshed host files e.2) ∧
    ((∀ e ∈ (runActions host h {}).active, Refreshed host files e.2) →
      ∀ job ∈ (getState host files now (runActions host h {})).active, job.mixed = false) := by
  have hplain : (runActions host h {}).plain = runCalls host (calls h) {} :=
    runActions_plain host h {}
  rw [← hplain, ← getState_eq_iff host files now]
  refine ⟨Iff.rfl, fun heq job hjob => ?_⟩
  rw [heq] at hjob
  obtain ⟨e, he, rfl⟩ := List.mem_map.mp hjob
  obtain ⟨e', he', rfl⟩ := List.mem_map.mp he
  obtain ⟨e'', -, rfl⟩ := List.mem_map.mp he'
  exact enrichJob_plain_not_mixed host files e''.2

/-- kwin starts, and its log shows a Rust crate at the first request. -/
def kwinHistory : List Action :=
  [.call (.line ⟨0, 0⟩
    "[--:--:--][abcdef][   build:kde/plasma/kwin.bst ] START   kde/kwin/abcdef-build.log".toList),
    .request fun _ => some (ascii "  Compiling foo v1")]

/-- At the second request the log ends in a marker, and the job is served with both. -/
theorem earlier_poll_shows :
    ¬ ∀ (host : Host) (h : List Action) (files : Files) (now : Host.Now Unit),
      getState host files now (runActions host h {}) =
          getState host files now (runCalls host (calls h) {}) ∧
        ∀ job ∈ (getState host files now (runActions host h {})).active, job.mixed = false := by
  intro h
  have hmixed := (h Host.root kwinHistory (fun _ => some (ascii "[1/2]")) ⟨0, false, ()⟩).2
  revert hmixed
  decide +kernel

end XfceLinux.Dashboard
