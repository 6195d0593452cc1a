import XfceLinux.Lib.Transition
import XfceLinux.Lib.Dict
import XfceLinux.Lib.Words

/-!
# The dependency tree and its refresh

`refreshTree` on the page sends `POST /api/deptree/refresh`, does not wait for it, and goes on
to poll `GET /api/deptree`. The server starts a thread of `_fetch_deptree` for the `POST`. The
thread returns when the status is `loading`; otherwise it sets the status to `loading`, runs
`bst show` and publishes what it printed.

A tree carries the number of `refreshTree` calls made before its `bst show` was started
(`shownAt`). The payload that the page accepts first after a call is from a `bst show` started
after the call, as long as no `bst show` runs and no `ready` answer is under way when
`refreshTree` is called, and a poll finds the status `ready` only after a thread has set it to
`loading` (`refreshed_tree_fresh`).
-/

namespace XfceLinux.Dashboard.Tree

open Lib.Text Lib.Transition

/-! ## What `bst show` prints -/

/-- The loop over the lines: the elements read so far and the one being read. -/
structure ShowReader where
  nodes : List (Str × List Str)
  current : Option (Str × List Str)

/-- `nodes[current_name] = current_deps[:]` -/
def ShowReader.flush (s : ShowReader) : List (Str × List Str) :=
  match s.current with
  | some (name, deps) => Lib.Dict.set s.nodes name deps
  | none => s.nodes

/-- `part.lstrip("-").strip()`, unless it is empty. -/
def dependency (part : Str) : List Str :=
  let dep := strip isSpace (lstrip (· == '-') part)
  if dep = [] then [] else [dep]

def ShowReader.line (s : ShowReader) (raw_line : Str) : ShowReader :=
  if '\t' ∈ raw_line then
    let (name_part, dep_part) := partition '\t' raw_line
    let dep_part := strip isSpace dep_part
    ⟨s.flush, some (strip isSpace name_part,
      if dep_part = [] ∨ dep_part = "[]".toList then [] else dependency dep_part)⟩
  else
    match s.current with
    | none => s
    | some (name, deps) =>
      let stripped := strip isSpace raw_line
      if stripped.head? = some '-' then ⟨s.nodes, some (name, deps ++ dependency stripped)⟩
      else s

/-- The dictionary of the elements with their dependencies. -/
def showNodes (stdout : Str) : List (Str × List Str) :=
  ((splitlines stdout).foldl ShowReader.line ⟨[], none⟩).flush

/-- How `subprocess.run` ends. -/
inductive ShowResult
  | exited (returncode : Int) (stdout stderr : Str)
  | raised (exc : Str)
deriving DecidableEq

inductive Status
  | idle
  | loading
  | ready
  | error
deriving DecidableEq

structure Deptree where
  status : Status
  nodes : List (Str × List Str)
  root : Str
  error : Option Str
  /-- The calls of `refreshTree` before the `bst show` of a `ready` tree was started. -/
  shownAt : Nat
deriving DecidableEq

/-- `_deptree` once `bst show` has ended. -/
def fetched (BST_TARGET : Str) (shownAt : Nat) : ShowResult → Deptree
  | .exited returncode stdout stderr =>
    if returncode ≠ 0 then
      let message := lastN 500 (strip isSpace stderr)
      ⟨.error, [], BST_TARGET,
        some ((if message = [] then "bst show failed".toList else message).take 500), 0⟩
    else ⟨.ready, showNodes stdout, BST_TARGET, none, shownAt⟩
  | .raised exc => ⟨.error, [], BST_TARGET, some (exc.take 500), 0⟩

/-! ## The page, the handlers and the threads -/

/-- A thread that runs `_fetch_deptree`. -/
inductive Fetch
  | started
  /-- The status has been set to `loading`. -/
  | switched
  /-- `bst show` runs; it was started after so many calls of `refreshTree`. -/
  | showing (shownAt : Nat)
  | returned
deriving DecidableEq

def Fetch.isShowing : Fetch → Bool
  | showing _ => true
  | _ => false

/-- The thread is between its two assignments to `_deptree`. -/
def Fetch.fetching : Fetch → Bool
  | switched | showing _ => true
  | _ => false

structure World where
  -- the page
  treeData : Option Deptree
  treePollTimer : Bool
  -- the requests and the answers under way
  posts : Nat
  gets : Nat
  replies : List Deptree
  -- the server
  deptree : Deptree
  threads : List Fetch
  /-- The calls of `refreshTree` so far. -/
  refreshes : Nat
  /-- Since the last of them a thread has set the status to `loading`, or one that had done
  so before had not started its `bst show` then. -/
  switched : Bool
deriving DecidableEq

inductive Act
  | refreshTree
  | openTree
  | closeTree
  /-- The timer fires `_pollTree`. -/
  | tick
  | handlePost
  | handleGet
  /-- The next statement of a thread; `result` is how its `bst show` ends. -/
  | thread (i : Nat) (result : ShowResult)
  /-- An answer to a `GET` reaches the page. -/
  | deliver (i : Nat)
deriving DecidableEq

/-- Start the timer and send the first poll. -/
def loadTree (w : World) : World :=
  { w with
    treePollTimer := true
    gets := w.gets + 1 }

def refreshTree (w : World) : World :=
  loadTree { w with
    treeData := none
    posts := w.posts + 1
    refreshes := w.refreshes + 1
    switched := w.threads.any (· = .switched) }

/-- `do_GET`: the answer, and a new thread when the status is `idle`. -/
def handleGet (w : World) : World :=
  if w.deptree.status = .idle then
    { w with
      threads := w.threads ++ [.started]
      replies := w.replies ++ [{ w.deptree with status := .loading }] }
  else { w with replies := w.replies ++ [w.deptree] }

/-- The next statement of the thread `i` of `_fetch_deptree`. -/
def fetchStep (BST_TARGET : Str) (w : World) (i : Nat) (result : ShowResult) :
    Fetch → Option World
  | .started =>
    if w.deptree.status = .loading then some { w with threads := w.threads.set i .returned }
    else some { w with
      deptree := ⟨.loading, [], BST_TARGET, none, 0⟩
      threads := w.threads.set i .switched
      switched := true }
  | .switched => some { w with threads := w.threads.set i (.showing w.refreshes) }
  | .showing shownAt =>
    some { w with
      deptree := fetched BST_TARGET shownAt result
      threads := w.threads.set i .returned }
  | .returned => none

/-- `_pollTree` with the answer `d`. -/
def pollTree (w : World) (d : Deptree) : World :=
  match d.status with
  | .ready =>
    { w with
      treePollTimer := false
      treeData := some d }
  | .error => { w with treePollTimer := false }
  | _ => w

def step (BST_TARGET : Str) (w : World) : Act → Option World
  | .refreshTree => some (refreshTree w)
  | .openTree => some (if w.treeData = none then loadTree w else w)
  | .closeTree => some { w with treePollTimer := false }
  | .tick => if w.treePollTimer then some { w with gets := w.gets + 1 } else none
  | .handlePost =>
    if 0 < w.posts then some { w with
      posts := w.posts - 1
      threads := w.threads ++ [.started] } else none
  | .handleGet =>
    if 0 < w.gets then some (handleGet { w with gets := w.gets - 1 }) else none
  | .thread i result => w.threads[i]?.bind (fetchStep BST_TARGET w i result)
  | .deliver i =>
    w.replies[i]?.map fun d => pollTree { w with replies := w.replies.eraseIdx i } d

/-! ## One `bst show` at a time -/

/-- A thread is between its two assignments exactly while the status is `loading`, and then
only one is. -/
def OneFetch (w : World) : Prop :=
  w.threads.countP Fetch.fetching = if w.deptree.status = .loading then 1 else 0

theorem fetched_status_ne_loading (BST_TARGET : Str) (n : Nat) (r : ShowResult) :
    (fetched BST_TARGET n r).status ≠ .loading := by
  cases r with
  | exited returncode stdout stderr =>
    rw [fetched]
    split <;> simp
  | raised exc => simp [fetched]

theorem fetched_shownAt {BST_TARGET : Str} {n : Nat} {r : ShowResult}
    (h : (fetched BST_TARGET n r).status = .ready) : (fetched BST_TARGET n r).shownAt = n := by
  cases r with
  | exited returncode stdout stderr =>
    rw [fetched] at h ⊢
    split
    · rename_i hCode
      rw [if_pos hCode] at h
      cases h
    · rfl
  | raised exc => cases h

theorem countP_fetching_set {l : List Fetch} {i : Nat} {t : Fetch} (h : l[i]? = some t)
    (u : Fetch) : (l.set i u).countP Fetch.fetching + (if t.fetching then 1 else 0) =
      l.countP Fetch.fetching + if u.fetching then 1 else 0 := by
  obtain ⟨hi, rfl⟩ := List.getElem?_eq_some_iff.1 h
  rw [List.countP_set hi]
  have hpos : l[i].fetching → 0 < l.countP Fetch.fetching := fun hf =>
    List.countP_pos_iff.2 ⟨l[i], List.getElem_mem hi, hf⟩
  split
  · rename_i hf
    have := hpos hf
    omega
  · omega

theorem loading_of_fetching {w : World} (h : OneFetch w) {t : Fetch} (ht : t ∈ w.threads)
    (hf : t.fetching) : w.deptree.status = .loading := by
  have hpos : 0 < w.threads.countP Fetch.fetching := List.countP_pos_iff.2 ⟨t, ht, hf⟩
  rw [h] at hpos
  split at hpos
  · assumption
  · cases hpos

theorem oneFetch_fetchStep {BST_TARGET : Str} {w w' : World} {i : Nat} {result : ShowResult}
    {t : Fetch} (hw : OneFetch w) (ht : w.threads[i]? = some t)
    (h : fetchStep BST_TARGET w i result t = some w') : OneFetch w' := by
  have hSet := countP_fetching_set ht
  have hMem : t ∈ w.threads := List.mem_of_getElem? ht
  cases t with
  | started =>
    rw [fetchStep] at h
    split at h
    · cases h
      show (w.threads.set i .returned).countP _ = _
      rw [← hw]
      simpa [Fetch.fetching] using hSet .returned
    · rename_i hStatus
      cases h
      show (w.threads.set i .switched).countP _ = 1
      have hCount := hSet .switched
      rw [hw, if_neg hStatus] at hCount
      simpa [Fetch.fetching] using hCount
  | switched =>
    cases h
    show (w.threads.set i _).countP _ = _
    rw [← hw]
    simpa [Fetch.fetching] using hSet (.showing w.refreshes)
  | showing n =>
    cases h
    show (w.threads.set i .returned).countP _ =
      if (fetched BST_TARGET n result).status = .loading then 1 else 0
    have hCount := hSet .returned
    rw [hw, if_pos (loading_of_fetching hw hMem rfl)] at hCount
    rw [if_neg (fetched_status_ne_loading BST_TARGET n result)]
    simpa [Fetch.fetching] using hCount
  | returned => cases h

theorem oneFetch_append {w : World} (hw : OneFetch w) {w' : World}
    (ht : w'.threads = w.threads ++ [.started]) (hs : w'.deptree = w.deptree) :
    OneFetch w' := by
  rw [OneFetch, ht, hs, List.countP_append, hw]
  simp [Fetch.fetching]

theorem oneFetch_handleGet {w : World} (hw : OneFetch w) : OneFetch (handleGet w) := by
  rw [handleGet]
  split
  · exact oneFetch_append hw rfl rfl
  · exact hw

@[simp] theorem pollTree_threads (w : World) (d : Deptree) :
    (pollTree w d).threads = w.threads := by
  unfold pollTree
  split <;> rfl

@[simp] theorem pollTree_deptree (w : World) (d : Deptree) :
    (pollTree w d).deptree = w.deptree := by
  unfold pollTree
  split <;> rfl

theorem oneFetch_step {BST_TARGET : Str} {w w' : World} {a : Act} (hw : OneFetch w)
    (h : step BST_TARGET w a = some w') : OneFetch w' := by
  cases a with
  | refreshTree | closeTree =>
    cases h
    exact hw
  | openTree =>
    rw [step, Option.some_inj] at h
    subst h
    split
    · exact hw
    · exact hw
  | tick =>
    rw [step] at h
    split at h
    · cases h
      exact hw
    · cases h
  | handlePost =>
    rw [step] at h
    split at h
    · cases h
      exact oneFetch_append hw rfl rfl
    · cases h
  | handleGet =>
    rw [step] at h
    split at h
    · cases h
      exact oneFetch_handleGet hw
    · cases h
  | thread i result =>
    obtain ⟨t, ht, hs⟩ := Option.bind_eq_some_iff.1 h
    exact oneFetch_fetchStep hw ht hs
  | deliver i =>
    obtain ⟨d, -, rfl⟩ := Option.map_eq_some_iff.1 h
    rw [OneFetch, pollTree_threads, pollTree_deptree]
    exact hw

/-! ## Freshness -/

/-- The page accepts `d` by this action, as its first tree since `refreshTree`. -/
def Accepts (w : World) (a : Act) (d : Deptree) : Prop :=
  w.treeData = none ∧ ∃ i, a = .deliver i ∧ w.replies[i]? = some d ∧ d.status = .ready

/-- No `bst show` runs and no `ready` answer is under way when `refreshTree` is called, and a
poll that finds the status `ready` comes after a thread's switch to `loading`. -/
structure Ordered (w : World) (a : Act) : Prop where
  refresh : a = .refreshTree →
    (∀ t ∈ w.threads, ¬ t.isShowing) ∧ ∀ d ∈ w.replies, d.status ≠ .ready
  poll : a = .handleGet → w.deptree.status = .ready → w.switched

instance (w : World) (a : Act) : Decidable (Ordered w a) :=
  decidable_of_iff
    ((a = .refreshTree →
        (∀ t ∈ w.threads, ¬ t.isShowing) ∧ ∀ d ∈ w.replies, d.status ≠ .ready) ∧
      (a = .handleGet → w.deptree.status = .ready → w.switched))
    ⟨fun h => ⟨h.1, h.2⟩, fun h => ⟨h.refresh, h.poll⟩⟩

/-- The page and the server before any `refreshTree`, in any state otherwise. -/
structure World.Start (w : World) : Prop where
  oneFetch : OneFetch w
  noRefresh : w.refreshes = 0
  deptree : w.deptree.shownAt = 0
  replies : ∀ d ∈ w.replies, d.shownAt = 0
  showing : ∀ n, .showing n ∈ w.threads → n = 0

/-- Every `ready` tree that can still reach the page is from a `bst show` started after the
last `refreshTree`. -/
structure Fresh (w : World) : Prop where
  oneFetch : OneFetch w
  showing : ∀ n, .showing n ∈ w.threads → n = w.refreshes
  published : w.deptree.status = .ready → w.switched → w.deptree.shownAt = w.refreshes
  underWay : ∀ d ∈ w.replies, d.status = .ready → d.shownAt = w.refreshes

theorem World.Start.fresh {w : World} (h : w.Start) : Fresh w where
  oneFetch := h.oneFetch
  showing n hn := (h.showing n hn).trans h.noRefresh.symm
  published _ _ := h.deptree.trans h.noRefresh.symm
  underWay d hd _ := (h.replies d hd).trans h.noRefresh.symm

/-- `refreshTree` leaves nothing behind that could be accepted by mistake: a thread that has
set the status to `loading` starts its `bst show` after the call. -/
theorem fresh_refreshTree {w : World} (hw : Fresh w)
    (hShow : ∀ t ∈ w.threads, ¬ t.isShowing) (hReply : ∀ d ∈ w.replies, d.status ≠ .ready) :
    Fresh (refreshTree w) where
  oneFetch := hw.oneFetch
  showing n hn := absurd rfl (hShow _ hn)
  published hReady hSwitched := by
    obtain ⟨t, ht, hts⟩ := List.any_eq_true.1 hSwitched
    have hLoading := loading_of_fetching hw.oneFetch ht (by
      rw [of_decide_eq_true hts]
      rfl)
    rw [show w.deptree.status = .ready from hReady] at hLoading
    cases hLoading
  underWay d hd hReady := absurd hReady (hReply d hd)

theorem fresh_handleGet {w : World} (hw : Fresh w)
    (hPoll : w.deptree.status = .ready → w.switched) : Fresh (handleGet w) := by
  have hOne := oneFetch_handleGet hw.oneFetch
  unfold handleGet at hOne ⊢
  split
  · rename_i hIdle
    rw [if_pos hIdle] at hOne
    refine ⟨hOne, fun n hn => ?_, hw.published, fun d hd hReady => ?_⟩
    · rcases List.mem_append.1 hn with hn | hn
      · exact hw.showing n hn
      · cases List.mem_singleton.1 hn
    · rcases List.mem_append.1 hd with hd | hd
      · exact hw.underWay d hd hReady
      · rw [List.mem_singleton.1 hd] at hReady
        cases hReady
  · rename_i hIdle
    rw [if_neg hIdle] at hOne
    refine ⟨hOne, hw.showing, hw.published, fun d hd hReady => ?_⟩
    rcases List.mem_append.1 hd with hd | hd
    · exact hw.underWay d hd hReady
    · rw [List.mem_singleton.1 hd] at hReady ⊢
      exact hw.published hReady (hPoll hReady)

theorem fresh_fetchStep {BST_TARGET : Str} {w w' : World} {i : Nat} {result : ShowResult}
    {t : Fetch} (hw : Fresh w) (ht : w.threads[i]? = some t)
    (h : fetchStep BST_TARGET w i result t = some w') : Fresh w' := by
  have hOne := oneFetch_fetchStep hw.oneFetch ht h
  have hMem : t ∈ w.threads := List.mem_of_getElem? ht
  cases t with
  | started =>
    rw [fetchStep] at h
    split at h
    · cases h
      refine ⟨hOne, fun n hn => ?_, hw.published, hw.underWay⟩
      rcases List.mem_or_eq_of_mem_set hn with hn | hn
      · exact hw.showing n hn
      · cases hn
    · cases h
      refine ⟨hOne, fun n hn => ?_, fun hReady => ?_, hw.underWay⟩
      · rcases List.mem_or_eq_of_mem_set hn with hn | hn
        · exact hw.showing n hn
        · cases hn
      · cases hReady
  | switched =>
    cases h
    refine ⟨hOne, fun n hn => ?_, hw.published, hw.underWay⟩
    rcases List.mem_or_eq_of_mem_set hn with hn | hn
    · exact hw.showing n hn
    · cases hn
      rfl
  | showing m =>
    cases h
    refine ⟨hOne, fun n hn => ?_, fun hReady _ => ?_, hw.underWay⟩
    · rcases List.mem_or_eq_of_mem_set hn with hn | hn
      · exact hw.showing n hn
      · cases hn
    · exact (fetched_shownAt hReady).trans (hw.showing m hMem)
  | returned => cases h

theorem fresh_pollTree {w : World} (hw : Fresh w) (d : Deptree) : Fresh (pollTree w d) := by
  unfold pollTree
  split
  · exact ⟨hw.oneFetch, hw.showing, hw.published, hw.underWay⟩
  · exact ⟨hw.oneFetch, hw.showing, hw.published, hw.underWay⟩
  · exact hw

theorem fresh_step {BST_TARGET : Str} {w w' : World} {a : Act} (hw : Fresh w)
    (ha : Ordered w a) (h : step BST_TARGET w a = some w') : Fresh w' := by
  have hOne := oneFetch_step hw.oneFetch h
  cases a with
  | refreshTree =>
    cases h
    obtain ⟨hShow, hReply⟩ := ha.refresh rfl
    exact fresh_refreshTree hw hShow hReply
  | closeTree =>
    cases h
    exact ⟨hOne, hw.showing, hw.published, hw.underWay⟩
  | openTree =>
    rw [step, Option.some_inj] at h
    subst h
    split
    · exact ⟨hw.oneFetch, hw.showing, hw.published, hw.underWay⟩
    · exact hw
  | tick =>
    rw [step] at h
    split at h
    · cases h
      exact ⟨hOne, hw.showing, hw.published, hw.underWay⟩
    · cases h
  | handlePost =>
    rw [step] at h
    split at h
    · cases h
      refine ⟨hOne, fun n hn => ?_, hw.published, hw.underWay⟩
      rcases List.mem_append.1 hn with hn | hn
      · exact hw.showing n hn
      · cases List.mem_singleton.1 hn
    · cases h
  | handleGet =>
    rw [step] at h
    split at h
    · cases h
      exact fresh_handleGet ⟨hw.oneFetch, hw.showing, hw.published, hw.underWay⟩ (ha.poll rfl)
    · cases h
  | thread i result =>
    obtain ⟨t, ht, hs⟩ := Option.bind_eq_some_iff.1 h
    exact fresh_fetchStep hw ht hs
  | deliver i =>
    obtain ⟨d, -, rfl⟩ := Option.map_eq_some_iff.1 h
    have hErase : Fresh { w with replies := w.replies.eraseIdx i } :=
      ⟨hw.oneFetch, hw.showing, hw.published, fun e he =>
        hw.underWay e (List.mem_of_mem_eraseIdx he)⟩
    exact fresh_pollTree hErase d

/-- **A refreshed tree is fresh when the steps are in order.** In every run whose actions all
meet `Ordered`, the first `ready` payload that the page accepts after `refreshTree` is from a
`bst show` started after the last call of it. -/
theorem refreshed_tree_fresh (BST_TARGET : Str) {w₀ w : World} {a : Act} {d : Deptree}
    (hStart : w₀.Start) (h : Reaches (step BST_TARGET) Ordered w₀ w) (hd : Accepts w a d) :
    d.shownAt = w.refreshes := by
  obtain ⟨-, i, -, hReply, hReady⟩ := hd
  have hFresh : Fresh w := h.invariant hStart.fresh fun _ _ _ hw ha hs => fresh_step hw ha hs
  exact hFresh.underWay d (List.mem_of_getElem? hReply) hReady

/-- A page that shows a tree fetched earlier. -/
def showingTree : World where
  treeData := some ⟨.ready, [], "root.bst".toList, none, 0⟩
  treePollTimer := false
  posts := 0
  gets := 0
  replies := []
  deptree := ⟨.ready, [], "root.bst".toList, none, 0⟩
  threads := []
  refreshes := 0
  switched := false

theorem start_showingTree : showingTree.Start :=
  ⟨rfl, rfl, rfl, fun _ h => absurd h List.not_mem_nil, fun _ h => absurd h List.not_mem_nil⟩

/-- The tree that a run of `bst show` for one element without dependencies gives. -/
def refetchedTree : Deptree :=
  ⟨.ready, [("root.bst".toList, [])], "root.bst".toList, none, 1⟩

/-- The `POST` is handled and its thread switches before the first poll arrives. -/
theorem refreshed_tree_fresh_inOrder : refetchedTree.shownAt = 1 :=
  refreshed_tree_fresh "root.bst".toList (a := .deliver 0)
    (w := ⟨none, true, 0, 0, [refetchedTree], refetchedTree, [.returned], 1, true⟩)
    start_showingTree
    (reaches_of_runWithin [.refreshTree, .handlePost, .thread 0 (.raised []),
      .handleGet, .deliver 0, .thread 0 (.raised []),
      .thread 0 (.exited 0 "root.bst\t[]\n".toList []), .tick, .handleGet] (by decide))
    ⟨rfl, 0, rfl, rfl, rfl⟩

/-- **A refresh can bring back the old tree.** The first poll is answered before the `POST`,
from the earlier `ready` result, and the page accepts it. -/
theorem refreshed_tree_old :
    ∃ w₀ w a d, w₀.Start ∧ Reaches (step "root.bst".toList) (fun _ _ => True) w₀ w ∧
      Accepts w a d ∧ w.refreshes = 1 ∧ d.shownAt = 0 := by
  refine ⟨showingTree, { refreshTree showingTree with
    gets := 0
    replies := [showingTree.deptree] }, .deliver 0, showingTree.deptree, start_showingTree, ?_,
    ⟨rfl, 0, rfl, rfl, rfl⟩, rfl, rfl⟩
  exact reaches_of_runWithin [.refreshTree, .handleGet] (by decide)

end XfceLinux.Dashboard.Tree
