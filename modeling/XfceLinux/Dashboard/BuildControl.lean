import XfceLinux.Lib.Transition
import XfceLinux.Lib.Text

/-!
# Starting and stopping builds

`POST /api/start` and `POST /api/stop` run `start_build` and `stop_build` in threads of their
own, one at a time under `BUILD_LOCK`. `start_build` asks `build_running()`: first the child
that an earlier `start_build` launched (`poll`), then the flag `bst_running`, which
`_sysinfo_sampler` stores some time after it has listed the containers. Containers of
`BST2_IMAGE` start and stop behind both.

A thread that holds the lock is at one of its statements (`Holder`). The statements of all
parties follow each other in any order (`step`).

The child is never alive when `start_build` truncates `LOG_FILE` or launches a build
(`child_dead_at_start`). No container runs at such a moment either, as long as the flag is not
out of date when `start_build` reads it and nobody else starts a container between that
reading and the launch (`builds_mutually_exclusive`). The flag is not out of date when the
sampler has listed the containers and stored the listing since a container was last started
(`flagCurrent_of_timely`).
-/

namespace XfceLinux.Dashboard.Build

open Lib.Transition

/-! ## The dashboard, its child and the containers -/

/-- The settings that the command line of a build is made from. -/
structure Settings where
  PROJECT_DIR : String
  cache_dir : String
  BST2_IMAGE : String
  BST_TARGET : String
  nproc : Nat

/-- The command that `start_build` launches. -/
def buildCommand (c : Settings) : List String :=
  ["podman", "run", "--rm",
    "--privileged", "--device", "/dev/fuse", "--network=host",
    "-v", c.PROJECT_DIR ++ ":/src:rw",
    "-v", c.cache_dir ++ ":/root/.cache/buildstream:rw",
    "-w", "/src",
    c.BST2_IMAGE,
    "bash", "-c", "bst --colors \"$@\"", "--",
    "--max-jobs", toString (max 1 (c.nproc / 2)),
    "--fetchers", toString c.nproc,
    "build", c.BST_TARGET]

/-- A `subprocess.Popen`: `poll()` is `None` while `alive`. -/
structure Child where
  cmd : List String
  alive : Bool
deriving DecidableEq

/-- What `podman ps -q` prints about the running containers, stripped. -/
def bst_container_id (containers : List String) : String :=
  "\n".intercalate containers

inductive Request
  | start
  | stop
deriving DecidableEq

/-- The next statement of the thread that holds `BUILD_LOCK`. -/
inductive Holder
  -- `start_build`: the two halves of `build_running()`
  | poll
  | flag
  -- `start_build`: after `build_running()` has returned `False`
  | makedirs
  | openWrite
  | writeHeader
  | openAppend
  | popen
  -- `stop_build`
  | terminate
  | list (killed : Bool)
  | stop (killed : Bool) (cid : String)
deriving DecidableEq

/-- The child has been found dead by `poll`. -/
def Holder.polled : Holder → Bool
  | flag | makedirs | openWrite | writeHeader | openAppend | popen => true
  | _ => false

/-- `build_running()` has returned `False`. -/
def Holder.admitted : Holder → Bool
  | makedirs | openWrite | writeHeader | openAppend | popen => true
  | _ => false

structure Control where
  LOG_FILE : String
  BUILD_PROC : Option Child
  /-- The running containers of `BST2_IMAGE`. -/
  containers : List String
  /-- `_sysinfo["bst_running"]` -/
  bst_running : Bool
  /-- The sampler's `cid`, between its listing and its store. -/
  sampled : Option String
  /-- The thread that holds `BUILD_LOCK`. -/
  holder : Option Holder
  /-- The requests answered so far, with `ok`. -/
  answers : List (Request × Bool)
deriving DecidableEq

namespace Control

/-- `BUILD_PROC is not None and BUILD_PROC.poll() is None` -/
def childAlive (w : Control) : Bool := w.BUILD_PROC.any Child.alive

/-- Return from the `with BUILD_LOCK` block. -/
def answer (w : Control) (r : Request) (ok : Bool) : Control :=
  { w with
    holder := none
    answers := w.answers ++ [(r, ok)] }

/-- Go on to the next statement. -/
def goto (w : Control) (h : Holder) : Control := { w with holder := some h }

end Control

/-! ## The statements of `start_build` and `stop_build` -/

/-- The thread that holds the lock carries out its next statement; `now` is the time. -/
def advance (c : Settings) (w : Control) (now : String) : Holder → Control
  | .poll => if w.childAlive then w.answer .start false else w.goto .flag
  | .flag => if w.bst_running then w.answer .start false else w.goto .makedirs
  | .makedirs => w.goto .openWrite
  | .openWrite => { w with LOG_FILE := "" }.goto .writeHeader
  | .writeHeader =>
    { w with LOG_FILE := w.LOG_FILE ++ "=== Build started at " ++ now ++ " ===\n" }.goto
      .openAppend
  | .openAppend => w.goto .popen
  | .popen => { w with BUILD_PROC := some ⟨buildCommand c, true⟩ }.answer .start true
  | .terminate => w.goto (.list w.childAlive)
  | .list killed =>
    if bst_container_id w.containers = "" then w.answer .stop killed
    else w.goto (.stop killed (bst_container_id w.containers))
  | .stop _ cid => { w with containers := w.containers.filter (· ≠ cid) }.answer .stop true

/-- The next statement raises. `start_build` lets the exception out and the lock goes;
`_bst_container_id` and `stop_build` catch theirs. -/
def raises (w : Control) : Holder → Option Control
  | .poll | .flag | .terminate => none
  | .list killed | .stop killed _ => some (w.answer .stop killed)
  | _ => some { w with holder := none }

inductive Act
  /-- A request takes `BUILD_LOCK`. -/
  | request (r : Request)
  | advance (now : String)
  | raises
  /-- The dashboard's own child exits. -/
  | childExits
  /-- The dashboard's own child starts its container. -/
  | childStarts (cid : String)
  /-- Somebody else starts a container. -/
  | containerStarts (cid : String)
  | containerStops (cid : String)
  /-- `cid = _bst_container_id()` in `_sysinfo_sampler`; `""` when `podman ps` fails. -/
  | samplerLists (ok : Bool)
  | samplerStores
  | samplerRaises
deriving DecidableEq

/-- The first statement of a request. -/
def Request.entry : Request → Holder
  | .start => .poll
  | .stop => .terminate

/-- One statement of one party. -/
def step (c : Settings) (w : Control) : Act → Option Control
  | .request r => if w.holder = none then some (w.goto r.entry) else none
  | .advance now => w.holder.map (advance c w now)
  | .raises => w.holder.bind (raises w)
  | .childExits =>
    if w.childAlive then some { w with
      BUILD_PROC := w.BUILD_PROC.map fun p => { p with alive := false } } else none
  | .childStarts cid =>
    if w.childAlive then some { w with containers := cid :: w.containers } else none
  | .containerStarts cid => some { w with containers := cid :: w.containers }
  | .containerStops cid => some { w with containers := w.containers.filter (· ≠ cid) }
  | .samplerLists ok =>
    if w.sampled = none then some { w with
      sampled := some (if ok then bst_container_id w.containers else "") } else none
  | .samplerStores =>
    w.sampled.map fun cid => { w with
      sampled := none
      bst_running := cid ≠ "" }
  | .samplerRaises => some { w with sampled := none }

/-- The dashboard has just been started. -/
structure Control.Fresh (w : Control) : Prop where
  noChild : w.BUILD_PROC = none
  noFlag : w.bst_running = false
  unlocked : w.holder = none

/-! ## The moments at which `start_build` acts -/

/-- The thread that holds the lock carries out its next statement. -/
def Act.advances : Act → Bool
  | .advance _ => true
  | _ => false

def Act.startsContainer : Act → Bool
  | .containerStarts _ => true
  | _ => false

/-- `start_build` truncates `LOG_FILE` by this action. -/
def Truncates (w : Control) (a : Act) : Prop := w.holder = some .openWrite ∧ a.advances

/-- `start_build` launches a build by this action. -/
def Launches (w : Control) (a : Act) : Prop := w.holder = some .popen ∧ a.advances

/-- No container of `BST2_IMAGE` runs and the child is not alive. -/
structure Control.Idle (w : Control) : Prop where
  noContainer : w.containers = []
  childDead : w.childAlive = false

/-- The flag is not out of date when `start_build` reads it, and nobody else starts a
container after a reading that let `start_build` go on. -/
structure FlagCurrent (w : Control) (a : Act) : Prop where
  reading : w.holder = some .flag → a.advances → w.bst_running = false → w.containers = []
  quiet : w.holder.any Holder.admitted → ¬ a.startsContainer

instance (w : Control) (a : Act) : Decidable (FlagCurrent w a) :=
  decidable_of_iff
    ((w.holder = some .flag → a.advances → w.bst_running = false → w.containers = []) ∧
      (w.holder.any Holder.admitted → ¬ a.startsContainer))
    ⟨fun h => ⟨h.1, h.2⟩, fun h => ⟨h.reading, h.quiet⟩⟩

/-! ## What `start_build` has made sure of -/

/-- The child is dead from the moment at which `poll` has found it dead. -/
def Polled (w : Control) : Prop :=
  ∀ h, w.holder = some h → h.polled → w.childAlive = false

/-- No container runs once `build_running()` has returned `False`. -/
def Clear (w : Control) : Prop :=
  ∀ h, w.holder = some h → h.admitted → w.containers = []

theorem Holder.polled_of_admitted {h : Holder} (ha : h.admitted) : h.polled := by
  cases h <;> first | rfl | cases ha

@[simp] theorem holder_goto (w : Control) (h : Holder) : (w.goto h).holder = some h := rfl

theorem polled_unlocked {w : Control} (h : w.holder = none) : Polled w := by
  intro h' hh
  rw [h] at hh
  cases hh

theorem clear_unlocked {w : Control} (h : w.holder = none) : Clear w := by
  intro h' hh
  rw [h] at hh
  cases hh

theorem polled_goto {w : Control} {h : Holder} (hw : h.polled → w.childAlive = false) :
    Polled (w.goto h) := by
  intro h' hh hp
  rw [holder_goto, Option.some_inj] at hh
  subst hh
  exact hw hp

theorem clear_goto {w : Control} {h : Holder} (hw : h.admitted → w.containers = []) :
    Clear (w.goto h) := by
  intro h' hh hp
  rw [holder_goto, Option.some_inj] at hh
  subst hh
  exact hw hp

/-- An exception lets the lock go. -/
theorem holder_raises {w w' : Control} {h : Holder} (hw : raises w h = some w') :
    w'.holder = none := by
  cases h <;> cases hw <;> rfl

theorem polled_advance (c : Settings) (now : String) {w : Control} {h : Holder}
    (hw : h.polled → w.childAlive = false) : Polled (advance c w now h) := by
  cases h with
  | poll =>
    rw [advance]
    split
    · exact polled_unlocked rfl
    · rename_i hAlive
      exact polled_goto fun _ => Bool.eq_false_iff.2 hAlive
  | flag =>
    rw [advance]
    split
    · exact polled_unlocked rfl
    · exact polled_goto fun _ => hw rfl
  | makedirs | openWrite | writeHeader | openAppend => exact polled_goto fun _ => hw rfl
  | popen | stop => exact polled_unlocked rfl
  | terminate => exact polled_goto fun hp => by cases hp
  | list killed =>
    rw [advance]
    split
    · exact polled_unlocked rfl
    · exact polled_goto fun hp => by cases hp

/-- **The child stays dead.** Whatever the containers and the sampler do, the child that
`poll` has found dead is dead when `start_build` truncates the log and when it launches. -/
theorem polled_step (c : Settings) {w w' : Control} {a : Act} (hw : Polled w)
    (h : step c w a = some w') : Polled w' := by
  cases a with
  | request r =>
    rw [step] at h
    split at h
    · cases h
      refine polled_goto fun hp => ?_
      cases r <;> cases hp
    · cases h
  | advance now =>
    obtain ⟨h', hh, rfl⟩ := Option.map_eq_some_iff.1 h
    exact polled_advance c now (hw h' hh)
  | raises =>
    obtain ⟨h', -, hr⟩ := Option.bind_eq_some_iff.1 h
    exact polled_unlocked (holder_raises hr)
  | childExits =>
    rw [step] at h
    split at h
    · cases h
      intro h' hh hp
      show (w.BUILD_PROC.map _).any Child.alive = false
      cases w.BUILD_PROC <;> rfl
    · cases h
  | childStarts cid =>
    rw [step] at h
    split at h
    · cases h
      exact hw
    · cases h
  | containerStarts cid | containerStops cid | samplerRaises =>
    cases h
    exact hw
  | samplerLists ok =>
    rw [step] at h
    split at h
    · cases h
      exact hw
    · cases h
  | samplerStores =>
    obtain ⟨cid, -, rfl⟩ := Option.map_eq_some_iff.1 h
    exact hw

theorem clear_advance (c : Settings) (now : String) {w : Control} {h : Holder}
    (hw : h.admitted → w.containers = [])
    (hFlag : h = .flag → w.bst_running = false → w.containers = []) :
    Clear (advance c w now h) := by
  cases h with
  | poll =>
    rw [advance]
    split
    · exact clear_unlocked rfl
    · exact clear_goto fun hp => by cases hp
  | flag =>
    rw [advance]
    split
    · exact clear_unlocked rfl
    · rename_i hRunning
      exact clear_goto fun _ => hFlag rfl (Bool.eq_false_iff.2 hRunning)
  | makedirs | openWrite | writeHeader | openAppend => exact clear_goto fun _ => hw rfl
  | popen | stop => exact clear_unlocked rfl
  | terminate => exact clear_goto fun hp => by cases hp
  | list killed =>
    rw [advance]
    split
    · exact clear_unlocked rfl
    · exact clear_goto fun hp => by cases hp

/-- While `start_build` goes on, containers are started by nobody: not by the child, which
is dead, and not by others, as long as the condition is met. -/
theorem clear_step (c : Settings) {w w' : Control} {a : Act} (hPolled : Polled w)
    (hw : Clear w) (hCurrent : FlagCurrent w a) (h : step c w a = some w') : Clear w' := by
  cases a with
  | request r =>
    rw [step] at h
    split at h
    · cases h
      refine clear_goto fun hp => ?_
      cases r <;> cases hp
    · cases h
  | advance now =>
    obtain ⟨h', hh, rfl⟩ := Option.map_eq_some_iff.1 h
    refine clear_advance c now (hw h' hh) fun hFlag => ?_
    exact hCurrent.reading (hFlag ▸ hh) rfl
  | raises =>
    obtain ⟨h', -, hr⟩ := Option.bind_eq_some_iff.1 h
    exact clear_unlocked (holder_raises hr)
  | childExits =>
    rw [step] at h
    split at h
    · cases h
      exact hw
    · cases h
  | childStarts cid =>
    rw [step] at h
    split at h
    · rename_i hAlive
      cases h
      intro h' hh hp
      rw [hPolled h' hh (Holder.polled_of_admitted hp)] at hAlive
      cases hAlive
    · cases h
  | containerStarts cid =>
    cases h
    intro h' hh hp
    have hAny : w.holder.any Holder.admitted := by rw [show w.holder = some h' from hh]; exact hp
    exact absurd rfl (hCurrent.quiet hAny)
  | containerStops cid =>
    cases h
    intro h' hh hp
    show w.containers.filter _ = []
    rw [hw h' hh hp, List.filter_nil]
  | samplerRaises =>
    cases h
    exact hw
  | samplerLists ok =>
    rw [step] at h
    split at h
    · cases h
      exact hw
    · cases h
  | samplerStores =>
    obtain ⟨cid, -, rfl⟩ := Option.map_eq_some_iff.1 h
    exact hw

theorem polled_of_reaches (c : Settings) {P : Control → Act → Prop} {w₀ w : Control}
    (hFresh : w₀.Fresh) (h : Reaches (step c) P w₀ w) : Polled w :=
  h.invariant (polled_unlocked hFresh.unlocked) fun _ _ _ hw _ hs => polled_step c hw hs

theorem clear_of_reaches (c : Settings) {w₀ w : Control} (hFresh : w₀.Fresh)
    (h : Reaches (step c) FlagCurrent w₀ w) : Polled w ∧ Clear w := by
  refine h.invariant (I := fun w => Polled w ∧ Clear w)
    ⟨polled_unlocked hFresh.unlocked, clear_unlocked hFresh.unlocked⟩ ?_
  rintro a u v ⟨hPolled, hClear⟩ hCurrent hs
  exact ⟨polled_step c hPolled hs, clear_step c hPolled hClear hCurrent hs⟩

/-- The child of an earlier build is dead whenever `start_build` truncates the log or
launches a build, in every run. -/
theorem child_dead_at_start (c : Settings) {w₀ w : Control} {a : Act} (hFresh : w₀.Fresh)
    (h : Reaches (step c) (fun _ _ => True) w₀ w) (ha : Truncates w a ∨ Launches w a) :
    w.childAlive = false := by
  have hPolled := polled_of_reaches c hFresh h
  rcases ha with ⟨hh, -⟩ | ⟨hh, -⟩
  · exact hPolled _ hh rfl
  · exact hPolled _ hh rfl

/-- **Builds exclude each other while the flag is current.** In every run whose actions all
meet `FlagCurrent`, `start_build` truncates `LOG_FILE` and launches a build only when no
container of `BST2_IMAGE` runs and the child is dead. -/
theorem builds_mutually_exclusive (c : Settings) {w₀ w : Control} {a : Act}
    (hFresh : w₀.Fresh) (h : Reaches (step c) FlagCurrent w₀ w)
    (ha : Truncates w a ∨ Launches w a) : w.Idle := by
  obtain ⟨hPolled, hClear⟩ := clear_of_reaches c hFresh h
  rcases ha with ⟨hh, -⟩ | ⟨hh, -⟩
  · exact ⟨hClear _ hh rfl, hPolled _ hh rfl⟩
  · exact ⟨hClear _ hh rfl, hPolled _ hh rfl⟩

/-- The settings of the dashboard as it starts without options. -/
def auroraSettings : Settings where
  PROJECT_DIR := "/src"
  cache_dir := "/root/.cache/buildstream"
  BST2_IMAGE := "bst2"
  BST_TARGET := "oci/aurora.bst"
  nproc := 8

/-- A dashboard that has just been started next to the given containers. -/
def startedNextTo (containers : List String) : Control where
  LOG_FILE := "old"
  BUILD_PROC := none
  containers := containers
  bst_running := false
  sampled := none
  holder := none
  answers := []

/-- A request refused because of the sampled container, and one that gets as far as the
launch after the container has stopped and the sampler has looked again. -/
theorem builds_mutually_exclusive_resampled :
    ({ startedNextTo [] with
      LOG_FILE := "=== Build started at noon ===\n"
      holder := some .popen
      answers := [(.start, false)] } : Control).Idle := by
  have hFresh : (startedNextTo ["4f1c"]).Fresh := ⟨rfl, rfl, rfl⟩
  refine builds_mutually_exclusive auroraSettings (a := .advance "noon") hFresh ?_
    (.inr ⟨rfl, rfl⟩)
  exact reaches_of_runWithin [.samplerLists true, .samplerStores,
    .request .start, .advance "", .advance "", .containerStops "4f1c",
    .samplerLists true, .samplerStores, .request .start, .advance "", .advance "",
    .advance "", .advance "", .advance "noon", .advance ""] (by decide)

/-- **A build is started on top of a running one.** A container starts after the sampler has
listed none. The next request finds the flag unset and truncates the log under the build. -/
theorem build_started_next_to_running :
    ∃ w₀ w a, w₀.Fresh ∧ Reaches (step auroraSettings) (fun _ _ => True) w₀ w ∧
      Truncates w a ∧ ¬ w.Idle := by
  refine ⟨startedNextTo [], (startedNextTo ["4f1c"]).goto .openWrite, .advance "",
    ⟨rfl, rfl, rfl⟩, ?_, ⟨rfl, rfl⟩, ?_⟩
  · exact reaches_of_runWithin [.samplerLists true, .samplerStores,
      .containerStarts "4f1c", .request .start, .advance "", .advance "", .advance ""]
      (by decide)
  · intro h
    cases h.noContainer

/-! ## When the flag is current -/

/-- What the sampler has done since a container was last started. -/
structure Seen where
  /-- It has listed the containers, and not stored what it found. -/
  listed : Bool := false
  /-- It has stored such a listing. -/
  stored : Bool := false
deriving DecidableEq

def Seen.after (k : Seen) : Act → Seen
  | .childStarts _ | .containerStarts _ => {}
  | .samplerLists ok => { k with listed := ok }
  | .samplerStores => { listed := false, stored := k.listed }
  | .samplerRaises => { k with listed := false }
  | _ => k

/-- One statement, and what the sampler has done behind it. -/
def watchedStep (c : Settings) (p : Control × Seen) (a : Act) : Option (Control × Seen) :=
  (step c p.1 a).map fun w => (w, p.2.after a)

/-- A container that starts has an id. -/
def Act.named : Act → Bool
  | .childStarts cid | .containerStarts cid => cid ≠ ""
  | _ => true

/-- `start_build` reads the flag only when the sampler has stored a listing made since a container
was last started, and nobody else starts one after a reading that let `start_build` go on. -/
structure Timely (p : Control × Seen) (a : Act) : Prop where
  seen : p.1.holder = some .flag → a.advances → p.2.stored
  named : a.named
  quiet : p.1.holder.any Holder.admitted → ¬ a.startsContainer

instance (p : Control × Seen) (a : Act) : Decidable (Timely p a) :=
  decidable_of_iff
    ((p.1.holder = some .flag → a.advances → p.2.stored) ∧ a.named ∧
      (p.1.holder.any Holder.admitted → ¬ a.startsContainer))
    ⟨fun h => ⟨h.1, h.2.1, h.2.2⟩, fun h => ⟨h.seen, h.named, h.quiet⟩⟩

/-- What was listed or stored since the last start speaks for the containers that run. -/
structure Watched (w : Control) (k : Seen) : Prop where
  named : ∀ cid ∈ w.containers, cid ≠ ""
  listed : k.listed → w.sampled = some "" → w.containers = []
  stored : k.stored → w.bst_running = false → w.containers = []

theorem eq_nil_of_bst_container_id {containers : List String}
    (hnamed : ∀ cid ∈ containers, cid ≠ "") (h : bst_container_id containers = "") :
    containers = [] := by
  cases containers with
  | nil => rfl
  | cons cid cids =>
    have hne := hnamed cid List.mem_cons_self
    rw [bst_container_id] at h
    cases cids with
    | nil => exact absurd h (by simpa using hne)
    | cons d ds =>
      rw [String.intercalate_cons_cons] at h
      simp [hne] at h

/-- Containers may stop at any time. -/
theorem Watched.shrink {w w' : Control} {k : Seen} (hw : Watched w k)
    (hcontainers : w'.containers.Sublist w.containers) (hsampled : w'.sampled = w.sampled)
    (hrunning : w'.bst_running = w.bst_running) : Watched w' k := by
  refine ⟨fun cid hcid => hw.named cid (hcontainers.subset hcid), ?_, ?_⟩
  · intro hlisted hnone
    rw [hw.listed hlisted (hsampled ▸ hnone)] at hcontainers
    exact List.sublist_nil.mp hcontainers
  · intro hstored hfalse
    rw [hw.stored hstored (hrunning ▸ hfalse)] at hcontainers
    exact List.sublist_nil.mp hcontainers

theorem watched_start {w : Control} {cid : String} (hw : ∀ d ∈ w.containers, d ≠ "")
    (hcid : cid ≠ "") : Watched { w with containers := cid :: w.containers } {} := by
  refine ⟨?_, by simp, by simp⟩
  rintro d (_ | ⟨_, hd⟩)
  · exact hcid
  · exact hw d hd

theorem containers_advance (c : Settings) (w : Control) (now : String) (h : Holder) :
    (advance c w now h).containers.Sublist w.containers ∧
      (advance c w now h).sampled = w.sampled ∧
      (advance c w now h).bst_running = w.bst_running := by
  cases h with
  | stop => exact ⟨List.filter_sublist, rfl, rfl⟩
  | poll | flag | list =>
    rw [advance]
    split <;> exact ⟨List.Sublist.refl _, rfl, rfl⟩
  | _ => exact ⟨List.Sublist.refl _, rfl, rfl⟩

theorem watched_step (c : Settings) {w w' : Control} {k : Seen} {a : Act} (hw : Watched w k)
    (hnamed : a.named) (h : step c w a = some w') : Watched w' (k.after a) := by
  cases a with
  | request r =>
    rw [step] at h
    split at h
    · cases h
      exact hw.shrink (List.Sublist.refl _) rfl rfl
    · cases h
  | advance now =>
    obtain ⟨h', -, rfl⟩ := Option.map_eq_some_iff.1 h
    obtain ⟨hcontainers, hsampled, hrunning⟩ := containers_advance c w now h'
    exact hw.shrink hcontainers hsampled hrunning
  | raises =>
    obtain ⟨h', -, hr⟩ := Option.bind_eq_some_iff.1 h
    cases h' <;> cases hr <;> exact hw.shrink (List.Sublist.refl _) rfl rfl
  | childExits =>
    rw [step] at h
    split at h
    · cases h
      exact hw.shrink (List.Sublist.refl _) rfl rfl
    · cases h
  | childStarts cid =>
    rw [step] at h
    split at h
    · cases h
      exact watched_start hw.named (by simpa [Act.named] using hnamed)
    · cases h
  | containerStarts cid =>
    cases h
    exact watched_start hw.named (by simpa [Act.named] using hnamed)
  | containerStops cid =>
    cases h
    exact hw.shrink List.filter_sublist rfl rfl
  | samplerLists ok =>
    rw [step] at h
    split at h
    · cases h
      refine ⟨hw.named, ?_, hw.stored⟩
      intro hok hnone
      rw [Seen.after] at hok
      rw [if_pos hok, Option.some_inj] at hnone
      exact eq_nil_of_bst_container_id hw.named hnone
    · cases h
  | samplerStores =>
    obtain ⟨cid, hcid, rfl⟩ := Option.map_eq_some_iff.1 h
    refine ⟨hw.named, by simp [Seen.after], ?_⟩
    intro hlisted hfalse
    have hnone : cid = "" := by simpa using hfalse
    exact hw.listed hlisted (hnone ▸ hcid)
  | samplerRaises =>
    cases h
    exact ⟨hw.named, by simp [Seen.after], hw.stored⟩

/-- **The sampler keeps the flag current.** A run in which `start_build` always reads a flag that
comes from a listing made since a container was last started meets `FlagCurrent`. -/
theorem flagCurrent_of_timely (c : Settings) {w₀ w : Control} {k : Seen}
    (hnamed : ∀ cid ∈ w₀.containers, cid ≠ "")
    (h : Reaches (watchedStep c) Timely (w₀, {}) (w, k)) : Reaches (step c) FlagCurrent w₀ w := by
  have hboth := h.invariant
    (I := fun p => Watched p.1 p.2 ∧ Reaches (step c) FlagCurrent w₀ p.1)
    ⟨⟨hnamed, by simp, by simp⟩, .refl w₀⟩ ?_
  · exact hboth.2
  · rintro a ⟨u, j⟩ q ⟨hwatched, hreaches⟩ htimely hs
    obtain ⟨v, hv, rfl⟩ := Option.map_eq_some_iff.1 hs
    refine ⟨watched_step c hwatched htimely.named hv, hreaches.tail ⟨?_, htimely.quiet⟩ hv⟩
    exact fun hflag hadvances => hwatched.stored (htimely.seen hflag hadvances)

/-- The container that runs when the dashboard is started is listed before the first request. -/
example : ∃ p, runWithin (watchedStep auroraSettings) Timely (startedNextTo ["4f1c"], {})
    [.samplerLists true, .samplerStores, .request .start, .advance "", .advance "",
      .containerStops "4f1c", .samplerLists true, .samplerStores, .request .start, .advance "",
      .advance "", .advance ""] = some p ∧ p.1.holder = some .openWrite :=
  ⟨_, rfl, rfl⟩

end XfceLinux.Dashboard.Build
