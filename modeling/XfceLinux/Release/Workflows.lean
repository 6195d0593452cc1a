import XfceLinux.Lib.Transition
import XfceLinux.Lib.Dict

/-!
# The release workflows

Three workflows write the `stable` branch and the image tags. `promote-stable.yml` and
`rollback-stable.yml` share the concurrency group `promote-stable`: at most one of them runs
(`World.job`). `build-multirunner.yml` has a group of its own for each branch. A run of it is
created by a dispatch, becomes visible to `gh run list` some time later, builds for hours and
then pushes its tags.

A job that fails, times out or is cancelled stops where it is. What it has done until then
stays, and so does the build that it has dispatched.
-/

namespace XfceLinux.Release

open Lib.Transition

variable {Sha : Type} [DecidableEq Sha]

/-! ## Runs, tags and images -/

inductive Workflow
  /-- Build xfce-linux (Multi-Runner) -/
  | multiRunner
  /-- Build and Publish xfce-linux Live ISO -/
  | liveIso
deriving DecidableEq

inductive Ref
  | main
  | stable
deriving DecidableEq

inductive Conclusion
  | success
  | failure
  | cancelled
  | timedOut
deriving DecidableEq

inductive Status
  | queued
  | inProgress
  | completed (conclusion : Conclusion)
deriving DecidableEq

/-- The tags of `ghcr.io/tuna-os/xfce-linux`. -/
inductive Tag (Sha : Type)
  | latest
  | nightly
  | nightlyOn (date : String)
  | stable
  | stableOn (date : String)
  | stableRollback (date : String)
  | commit (sha : Sha)
deriving DecidableEq

/-- An image: its `OCI_IMAGE_REVISION` and the run that has built it. -/
structure Image (Sha : Type) where
  revision : Sha
  run : Nat
deriving DecidableEq

/-- `TAGS` in `Push to GHCR`. -/
def TAGS (ref : Ref) (DATE_TAG : String) (sha : Sha) : List (Tag Sha) :=
  match ref with
  | .stable => [.stable, .stableOn DATE_TAG, .commit sha]
  | .main => [.latest, .nightly, .nightlyOn DATE_TAG, .commit sha]

structure Run (Sha : Type) where
  workflow : Workflow
  ref : Ref
  /-- `github.sha`, the head of the branch at the dispatch. -/
  headSha : Sha
  push_image : Bool
  /-- The promotion whose dispatch has created the run. -/
  promotion : Option Nat
  visible : Bool
  status : Status
  /-- `DATE_TAG` and the number of tags tried, once `Push to GHCR` has begun. -/
  pushing : Option (String × Nat)
deriving DecidableEq

/-! ## The jobs of the group `promote-stable` -/

inductive PromotionStep
  /-- Fast-forward stable to the verified commit -/
  | push
  /-- Dispatch stable build -/
  | dispatch
  /-- `wait_for_run` after so many polls -/
  | wait (workflow : Workflow) (polls : Nat)
  /-- The checks of the published tags and of the ISO -/
  | verify
deriving DecidableEq

inductive RollbackStep
  /-- Verify target image exists -/
  | verify
  /-- Roll back image tags: the copy onto `stable` -/
  | copyStable
  /-- Roll back image tags: the copy onto the dated tag -/
  | copyDated
  /-- Move stable branch -/
  | moveBranch
  | summary
deriving DecidableEq

inductive Job (Sha : Type)
  | promotion (number : Nat) (sha : Sha) (at_ : PromotionStep)
  | rollback (number : Nat) (target_sha : Sha) (dry_run : Bool) (at_ : RollbackStep)
deriving DecidableEq

structure World (Sha : Type) where
  /-- The head of `main`. -/
  main : Sha
  /-- The head of `stable`, once the branch exists. -/
  stable : Option Sha
  registry : List (Tag Sha × Image Sha)
  /-- All runs, oldest first. -/
  runs : List (Run Sha)
  /-- The job that holds the group `promote-stable`. -/
  job : Option (Job Sha)
  /-- The jobs started so far. -/
  jobs : Nat
deriving DecidableEq

namespace World

/-- The image behind a tag. -/
def image (w : World Sha) (t : Tag Sha) : Option (Image Sha) := Lib.Dict.get? w.registry t

/-- Let a tag denote an image. -/
def tag (w : World Sha) (t : Tag Sha) (i : Image Sha) : World Sha :=
  { w with registry := Lib.Dict.set w.registry t i }

def goto (w : World Sha) (j : Job Sha) : World Sha := { w with job := some j }

/-- The job ends, well or badly. -/
def release (w : World Sha) : World Sha := { w with job := none }

def head (w : World Sha) : Ref → Option Sha
  | .main => some w.main
  | .stable => w.stable

/-- A new run at the head of a branch. -/
def dispatch (w : World Sha) (workflow : Workflow) (ref : Ref) (push_image : Bool)
    (promotion : Option Nat) : Option (World Sha) :=
  (w.head ref).map fun sha => { w with
    runs := w.runs ++ [⟨workflow, ref, sha, push_image, promotion, false, .queued, none⟩] }

end World

/-- The runs that `gh run list --workflow … --branch stable --commit …` looks at. -/
def Listed (workflow : Workflow) (sha : Sha) (r : Run Sha) : Bool :=
  r.visible && r.workflow = workflow && r.ref = .stable && r.headSha = sha

/-- `gh run list`, newest first. -/
def gh_run_list (w : World Sha) (workflow : Workflow) (sha : Sha) : List (Run Sha) :=
  ((w.runs.filter (Listed workflow sha)).reverse).take 20

/-- What one poll of `wait_for_run` does. -/
inductive Poll
  | returns
  | exits
  | sleeps
deriving DecidableEq

def pollOf (w : World Sha) (workflow : Workflow) (sha : Sha) : Poll :=
  match (gh_run_list w workflow sha).head? with
  | none => .sleeps
  | some run =>
    match run.status with
    | .completed .success => .returns
    | .completed _ => .exits
    | _ => .sleeps

/-- How often `wait_for_run` polls. -/
def maxPolls : Nat := 720

/-- What follows a `wait_for_run` that has returned 0. -/
def PromotionStep.afterWait : Workflow → PromotionStep
  | .multiRunner => .wait .liveIso 0
  | .liveIso => .verify

/-- One poll of the promotion `n`. -/
def waitStep (w : World Sha) (n : Nat) (sha : Sha) (workflow : Workflow) (polls : Nat) :
    World Sha :=
  match pollOf w workflow sha with
  | .returns => w.goto (.promotion n sha (.afterWait workflow))
  | .exits => w.release
  | .sleeps =>
    if polls + 1 < maxPolls then w.goto (.promotion n sha (.wait workflow (polls + 1)))
    else w.release

/-- The tags that a promotion asks for at its end. -/
def Published (w : World Sha) (sha : Sha) : Bool :=
  (w.image .stable).isSome && (w.image (.commit sha)).isSome &&
    w.registry.any fun e => match e.1 with | .stableOn _ => true | _ => false

/-- The next statement of a promotion; its dispatch leaves `push_image` at its default. -/
def promotionStep (w : World Sha) (n : Nat) (sha : Sha) : PromotionStep → Option (World Sha)
  | .push => some ({ w with stable := some sha }.goto (.promotion n sha .dispatch))
  | .dispatch =>
    (w.dispatch .multiRunner .stable true (some n)).map fun w =>
      w.goto (.promotion n sha (.wait .multiRunner 0))
  | .wait workflow polls => some (waitStep w n sha workflow polls)
  | .verify => if Published w sha then some w.release else none

/-- The next statement of a rollback; `date` is what the clock shows. -/
def rollbackStep (w : World Sha) (n : Nat) (target_sha : Sha) (dry_run : Bool)
    (date : String) : RollbackStep → Option (World Sha)
  | .verify =>
    (w.image (.commit target_sha)).map fun _ =>
      w.goto (.rollback n target_sha dry_run (if dry_run then .summary else .copyStable))
  | .copyStable =>
    (w.image (.commit target_sha)).map fun i =>
      (w.tag .stable i).goto (.rollback n target_sha dry_run .copyDated)
  | .copyDated =>
    (w.image (.commit target_sha)).map fun i =>
      (w.tag (.stableRollback date) i).goto (.rollback n target_sha dry_run .moveBranch)
  | .moveBranch =>
    some ({ w with stable := some target_sha }.goto (.rollback n target_sha dry_run .summary))
  | .summary => some w.release

/-! ## All steps -/

/-- What a run does. -/
inductive RunAct
  | appears
  | starts
  /-- The run begins `Push to GHCR`. -/
  | beginsPush (date : String)
  /-- The run pushes its next tag, or gives up on it after three tries. -/
  | pushesTag (ok : Bool)
  | completes (conclusion : Conclusion)
deriving DecidableEq

inductive Act (Sha : Type)
  /-- A commit is pushed to `main`. -/
  | mainMoves (sha : Sha)
  /-- A promotion takes the group; `sha` is the output of its health check. -/
  | promote (sha : Sha)
  | rollBack (target_sha : Sha) (dry_run : Bool)
  /-- The next statement of the job that holds the group. -/
  | jobStep (date : String)
  /-- The job fails, times out or is cancelled. -/
  | jobStops
  /-- A dispatch by hand, by the schedule or by another workflow. -/
  | dispatched (workflow : Workflow) (ref : Ref) (push_image : Bool)
  | run (i : Nat) (a : RunAct)
deriving DecidableEq

/-- The runs that queue behind each other. -/
def sameGroup (r s : Run Sha) : Bool := r.workflow = s.workflow && r.ref = s.ref

/-- The run has come to the end of its last step. -/
def Run.done (r : Run Sha) : Bool :=
  match r.workflow, r.push_image, r.pushing with
  | .multiRunner, true, some (date, k) => (TAGS r.ref date r.headSha).length ≤ k
  | .multiRunner, true, none => false
  | _, _, _ => true

namespace World

def setRun (w : World Sha) (i : Nat) (r : Run Sha) : World Sha :=
  { w with runs := w.runs.set i r }

end World

/-- The run `r`, the `i`-th of all, does something. -/
def runStep (w : World Sha) (i : Nat) (r : Run Sha) : RunAct → Option (World Sha)
  | .appears => some (w.setRun i { r with visible := true })
  | .starts =>
    if r.status = .queued ∧ ¬ w.runs.any fun s => sameGroup r s && s.status = .inProgress then
      some (w.setRun i { r with status := .inProgress })
    else none
  | .beginsPush date =>
    if r.status = .inProgress ∧ r.workflow = .multiRunner ∧ r.push_image ∧ r.pushing = none then
      some (w.setRun i { r with pushing := some (date, 0) })
    else none
  | .pushesTag ok =>
    if r.status = .inProgress then
      r.pushing.bind fun p =>
        (TAGS r.ref p.1 r.headSha)[p.2]?.map fun t =>
          let w := w.setRun i { r with pushing := some (p.1, p.2 + 1) }
          if ok then w.tag t ⟨r.headSha, i⟩ else w
    else none
  | .completes conclusion =>
    if (r.status = .inProgress ∧ (conclusion = .success → r.done)) ∨
        (r.status = .queued ∧ conclusion = .cancelled) then
      some (w.setRun i { r with status := .completed conclusion })
    else none

/-- The next statement of the job that holds the group. -/
def jobStep (w : World Sha) (date : String) : Job Sha → Option (World Sha)
  | .promotion n sha at_ => promotionStep w n sha at_
  | .rollback n target_sha dry_run at_ => rollbackStep w n target_sha dry_run date at_

def step (w : World Sha) : Act Sha → Option (World Sha)
  | .mainMoves sha => some { w with main := sha }
  | .promote sha =>
    if w.job = none then
      some ({ w with jobs := w.jobs + 1 }.goto (.promotion w.jobs sha .push))
    else none
  | .rollBack target_sha dry_run =>
    if w.job = none then
      some ({ w with jobs := w.jobs + 1 }.goto (.rollback w.jobs target_sha dry_run .verify))
    else none
  | .jobStep date => w.job.bind (jobStep w date)
  | .jobStops => w.job.map fun _ => w.release
  | .dispatched workflow ref push_image => w.dispatch workflow ref push_image none
  | .run i a => w.runs[i]?.bind fun r => runStep w i r a

/-! ## What a step leaves alone -/

/-- A poll changes the job alone. -/
theorem waitStep_frame (w : World Sha) (n : Nat) (sha : Sha) (workflow : Workflow)
    (polls : Nat) :
    waitStep w n sha workflow polls = { w with job := (waitStep w n sha workflow polls).job } := by
  unfold waitStep
  split
  · rfl
  · rfl
  · split <;> rfl

/-- `s` is the run `r` at a later moment. -/
structure Run.Later (r s : Run Sha) : Prop where
  workflow : s.workflow = r.workflow
  ref : s.ref = r.ref
  headSha : s.headSha = r.headSha
  promotion : s.promotion = r.promotion
  completed : ∀ c, r.status = .completed c → s.status = .completed c

/-- A run changes itself and at most one tag; the tag then denotes an image of its commit. -/
theorem runStep_cases {w w' : World Sha} {i : Nat} {r : Run Sha} {a : RunAct}
    (h : runStep w i r a = some w') :
    ∃ s : Run Sha, r.Later s ∧
      (w' = w.setRun i s ∨
        ∃ t date k, a = .pushesTag true ∧ r.pushing = some (date, k) ∧
          (TAGS r.ref date r.headSha)[k]? = some t ∧
          w' = (w.setRun i s).tag t ⟨r.headSha, i⟩) := by
  cases a with
  | appears =>
    cases h
    exact ⟨{ r with visible := true }, ⟨rfl, rfl, rfl, rfl, fun _ hc => hc⟩, .inl rfl⟩
  | starts =>
    rw [runStep] at h
    split at h
    · rename_i hQueued
      cases h
      refine ⟨{ r with status := .inProgress }, ⟨rfl, rfl, rfl, rfl, fun c hc => ?_⟩,
        .inl rfl⟩
      rw [hQueued.1] at hc
      cases hc
    · cases h
  | beginsPush date =>
    rw [runStep] at h
    split at h
    · cases h
      exact ⟨{ r with pushing := some (date, 0) }, ⟨rfl, rfl, rfl, rfl, fun _ hc => hc⟩,
        .inl rfl⟩
    · cases h
  | pushesTag ok =>
    rw [runStep] at h
    split at h
    · obtain ⟨⟨date, k⟩, hPushing, h⟩ := Option.bind_eq_some_iff.1 h
      obtain ⟨t, ht, h⟩ := Option.map_eq_some_iff.1 h
      refine ⟨{ r with pushing := some (date, k + 1) },
        ⟨rfl, rfl, rfl, rfl, fun _ hc => hc⟩, ?_⟩
      cases ok with
      | true => exact .inr ⟨t, date, k, rfl, hPushing, ht, h.symm⟩
      | false => exact .inl h.symm
    · cases h
  | completes conclusion =>
    rw [runStep] at h
    split at h
    · rename_i hStatus
      cases h
      refine ⟨{ r with status := .completed conclusion },
        ⟨rfl, rfl, rfl, rfl, fun c hc => ?_⟩, .inl rfl⟩
      rcases hStatus with ⟨hStatus, -⟩ | ⟨hStatus, -⟩
      · rw [hStatus] at hc
        cases hc
      · rw [hStatus] at hc
        cases hc
    · cases h

end XfceLinux.Release
