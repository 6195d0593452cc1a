import XfceLinux.Dashboard.FailureBlock

/-!
# Whose log a Failure Summary shows

`_set_fail_log` stores a path in the last failure without a log, whichever element that is.
What decides is the order of the elements that wait for a log (`Desk`): an element line
lets a new element wait, a path line serves the last one. The paths of a block go to the
element of the block if and only if it is this element that is served (`logs_attributed_iff`).
-/

namespace XfceLinux.Dashboard

open Lib Lib.Text Lib.Regex

/-! ## Blocks -/

/-- A block of the Failure Summary: an element line and its log path lines. -/
structure Block (host : Host) where
  head : Line
  elem : Str
  paths : List Line
  reads : failureElem host (cleanLine head.2) = some elem
  logs : ∀ l ∈ paths, (failureLog host (cleanLine l.2)).isSome

/-- The step changes the logs of failures of `elem` only. -/
def LogsOnly (elem : Str) (s t : State) : Prop :=
  ∀ p ∈ s.failures.zip t.failures, p.1.log ≠ p.2.log → p.2.element = elem

/-- Every path line is stored with a failure of `elem`, if at all. -/
def PathsAttributed (host : Host) (elem : Str) : List Line → State → Prop
  | [], _ => True
  | l :: ls, s => LogsOnly elem s (afterLine host l.1 l.2 s) ∧
      PathsAttributed host elem ls (afterLine host l.1 l.2 s)

/-- Every path line of a block is stored with a failure of the block's element, if at all. -/
def Attributed (host : Host) : List (Block host) → State → Prop
  | [], _ => True
  | b :: bs, s =>
    PathsAttributed host b.elem b.paths (afterLine host b.head.1 b.head.2 s) ∧
      Attributed host bs (runLines host (b.head :: b.paths) s)

/-! ## The desk -/

/-- The elements with a failure, and those that wait for a log, in the order of the failures. -/
structure Desk where
  known : List Str
  waiting : List Str
deriving DecidableEq

/-- A new element waits. -/
def Desk.list (elem : Str) (d : Desk) : Desk :=
  if d.known.contains elem then d else ⟨d.known ++ [elem], d.waiting ++ [elem]⟩

/-- The last element that waits is served. -/
def Desk.serve (d : Desk) : Desk := { d with waiting := d.waiting.dropLast }

def State.desk (s : State) : Desk :=
  ⟨s.failures.map (·.element), (s.failures.filter Item.lacksLog).map (·.element)⟩

/-- In each of the blocks, given by their elements and numbers of paths, only the element of
the block is served. -/
def Fits : List (Str × Nat) → Desk → Prop
  | [], _ => True
  | (elem, n) :: bs, d => (∀ e ∈ lastN n (d.list elem).waiting, e = elem) ∧
      Fits bs (Desk.serve^[n] (d.list elem))

/-! ## The state and its desk -/

theorem desk_listed {host : Host} {raw elem : Str}
    (h : failureElem host (cleanLine raw) = some elem) (clock : Clock) (s : State) :
    (afterLine host clock raw s).desk = s.desk.list elem := by
  have hany : (s.failures.any fun f => f.element = elem) = true ↔
      s.desk.known.contains elem = true := by
    simp [State.desk]
  rw [State.desk, (afterLine_listed h clock s).failures, addFailureElem, Desk.list]
  dsimp only
  by_cases hknown : s.desk.known.contains elem = true
  · rw [if_pos (hany.mpr hknown), if_pos hknown]
    rfl
  · rw [if_neg (mt hany.mp hknown), if_neg hknown]
    simp [State.desk, placeholder, Item.lacksLog]

/-- The last failure without a log gets it. -/
theorem setFailLog_cases (path : Str) (s : State) :
    (s.desk.waiting = [] ∧ (setFailLog path s).failures = s.failures) ∨
      ∃ before f after, s.failures = before ++ f :: after ∧ f.lacksLog = true ∧
        after.filter Item.lacksLog = [] ∧
        (setFailLog path s).failures = before ++ f.setLog path :: after := by
  unfold setFailLog
  cases hfind : s.failures.reverse.find? Item.lacksLog with
  | none =>
    have hnone : s.failures.filter Item.lacksLog = [] := by
      rw [List.filter_eq_nil_iff]
      intro f hf
      exact List.find?_eq_none.mp hfind f (List.mem_reverse.mpr hf)
    exact .inl ⟨by simp [State.desk, hnone], rfl⟩
  | some f =>
    obtain ⟨hf, after, before, hsplit, hafter⟩ := List.find?_eq_some_iff_append.mp hfind
    have hlast : ∀ g ∈ after, g.lacksLog = false := by simpa using hafter
    refine .inr ⟨before.reverse, f, after.reverse, ?_, hf, ?_, ?_⟩
    · rw [← List.reverse_reverse s.failures, hsplit]
      simp
    · rw [List.filter_reverse, List.filter_eq_nil_iff.mpr (by simpa using hlast), List.reverse_nil]
    · simp only [State.writeThrough, hsplit]
      rw [Dict.modifyFirst_append hlast hf]
      simp

theorem eq_of_mem_zip_self {α : Type*} {l : List α} {p : α × α} (h : p ∈ l.zip l) :
    p.1 = p.2 := by
  rw [List.zip, List.zipWith_self] at h
  obtain ⟨a, -, rfl⟩ := List.mem_map.mp h
  rfl

/-- The path is stored with the element that is served. -/
theorem logsOnly_setFailLog {path elem : Str} (hpath : path ≠ []) {s t : State}
    (ht : t.failures = (setFailLog path s).failures) :
    LogsOnly elem s t ↔ ∀ e ∈ s.desk.waiting.getLast?, e = elem := by
  rw [LogsOnly, ht]
  rcases setFailLog_cases path s with
    ⟨hwaiting, hsame⟩ | ⟨before, f, after, hs, hf, hafter, hset⟩
  · rw [hsame, hwaiting]
    refine iff_of_true ?_ (by simp)
    intro p hp hlog
    exact absurd (congrArg Item.log (eq_of_mem_zip_self hp)) hlog
  · have hwaiting : s.desk.waiting.getLast? = some f.element := by
      simp [State.desk, hs, hf, hafter]
    have hchanged : f.log ≠ (f.setLog path).log := by
      intro hlog
      rw [Item.lacksLog, hlog] at hf
      exact hpath (by simpa [Item.setLog] using hf)
    rw [hset, hwaiting, hs, List.zip_append rfl, List.zip_cons_cons]
    simp only [List.mem_append, List.mem_cons, Option.mem_def, Option.some.injEq, forall_eq']
    constructor
    · intro h
      exact h (f, f.setLog path) (.inr (.inl rfl)) hchanged
    · rintro rfl p (hp | rfl | hp) hlog
      · exact absurd (congrArg Item.log (eq_of_mem_zip_self hp)) hlog
      · rfl
      · exact absurd (congrArg Item.log (eq_of_mem_zip_self hp)) hlog

theorem desk_setFailLog {path : Str} (hpath : path ≠ []) {s t : State}
    (ht : t.failures = (setFailLog path s).failures) : t.desk = s.desk.serve := by
  rcases setFailLog_cases path s with
    ⟨hwaiting, hsame⟩ | ⟨before, f, after, hs, hf, hafter, hset⟩
  · have hdesk : t.desk = s.desk := by rw [State.desk, State.desk, ht, hsame]
    rw [hdesk, Desk.serve, hwaiting, List.dropLast_nil, ← hwaiting]
  · have hserved : (f.setLog path).lacksLog = false := by
      simpa [Item.lacksLog, Item.setLog] using hpath
    have helement : (f.setLog path).element = f.element := rfl
    rw [State.desk, ht, hset, Desk.serve, State.desk, hs]
    simp only [List.map_append, List.map_cons, helement, List.filter_append,
      List.filter_cons_of_pos hf, List.filter_cons_of_neg (Bool.eq_false_iff.mp hserved), hafter,
      List.map_nil, List.append_nil, List.dropLast_concat]

/-! ## Blocks and their paths -/

/-- The paths go to the last elements that wait. -/
theorem pathsAttributed_iff {host : Host} (elem : Str) {ls : List Line}
    (hls : ∀ l ∈ ls, (failureLog host (cleanLine l.2)).isSome) (s : State) :
    (runLines host ls s).desk = Desk.serve^[ls.length] s.desk ∧
      (PathsAttributed host elem ls s ↔ ∀ e ∈ lastN ls.length s.desk.waiting, e = elem) := by
  induction ls generalizing s with
  | nil => exact ⟨rfl, by simp [PathsAttributed, lastN]⟩
  | cons l ls ih =>
    obtain ⟨path, hpath⟩ := Option.isSome_iff_exists.mp (hls l List.mem_cons_self)
    have hne := path_ne_nil hpath
    have hfailures := (afterLine_failLog hpath l.1 s).failures
    have hserve := desk_setFailLog hne hfailures
    obtain ⟨hdesk, hrest⟩ := ih (fun m hm => hls m (List.mem_cons_of_mem l hm))
      (afterLine host l.1 l.2 s)
    rw [hserve] at hdesk hrest
    refine ⟨hdesk, ?_⟩
    rw [PathsAttributed, logsOnly_setFailLog hne hfailures, hrest, List.length_cons,
      forall_mem_lastN_succ]
    rfl

/-- **Whose log it is.** In a sequence of blocks of a Failure Summary, read in any state, every
log path is only stored with a failure of its block's element if and only if in each block
the elements that are served are the element of the block. -/
theorem logs_attributed_iff (host : Host) (bs : List (Block host)) (s : State) :
    Attributed host bs s ↔ Fits (bs.map fun b => (b.elem, b.paths.length)) s.desk := by
  induction bs generalizing s with
  | nil => exact Iff.rfl
  | cons b bs ih =>
    have hlisted := desk_listed b.reads b.head.1 s
    obtain ⟨hdesk, hpaths⟩ :=
      pathsAttributed_iff b.elem b.logs (afterLine host b.head.1 b.head.2 s)
    rw [hlisted] at hdesk hpaths
    rw [Attributed, List.map_cons, Fits, hpaths, ih]
    apply and_congr_right
    intro _
    rw [← hdesk]
    rfl

/-- A summary of new elements with at most one path each is always right, whichever failures
lack a log before it. -/
theorem fits_of_new {bs : List (Str × Nat)} {d : Desk} (hnew : ∀ b ∈ bs, b.1 ∉ d.known)
    (hdistinct : (bs.map (·.1)).Nodup) (hone : ∀ b ∈ bs, b.2 ≤ 1) : Fits bs d := by
  induction bs generalizing d with
  | nil => trivial
  | cons b bs ih =>
    obtain ⟨hb, hdistinct⟩ := List.nodup_cons.mp hdistinct
    have hlist : d.list b.1 = ⟨d.known ++ [b.1], d.waiting ++ [b.1]⟩ :=
      if_neg fun hb => hnew b List.mem_cons_self (List.contains_iff_mem.mp hb)
    have hknown : ∀ n, (Desk.serve^[n] (d.list b.1)).known = d.known ++ [b.1] := by
      intro n
      induction n with
      | zero => rw [hlist]; rfl
      | succ n ih => rw [Function.iterate_succ_apply', Desk.serve, ih]
    refine ⟨?_, ih ?_ hdistinct fun c hc => hone c (List.mem_cons_of_mem b hc)⟩
    · have hlast := hone b List.mem_cons_self
      rw [hlist]
      interval_cases b.2
      · simp [lastN]
      · simp [lastN]
    · intro c hc
      rw [hknown, List.mem_append, List.mem_singleton, not_or]
      refine ⟨hnew c (List.mem_cons_of_mem b hc), ?_⟩
      intro hcb
      exact hb (List.mem_map.mpr ⟨c, hc, hcb⟩)

/-! ## A log with the wrong element -/

/-- A live failure of `kwin`, which has a log. -/
def kwinFailure : List Call :=
  [.line ⟨0, 0⟩ "[00:00:01][abcdef][build:kde/plasma/kwin.bst] START   kde/abcdef-build.log".toList,
    .line ⟨0, 0⟩ "[00:00:09][abcdef][build:kde/plasma/kwin.bst] FAILURE Command failed".toList]

def dolphinBlock : Block Host.root where
  head := (⟨0, 0⟩, "    kde/apps/dolphin.bst:".toList)
  elem := "kde/apps/dolphin.bst".toList
  paths := []
  reads := by decide +kernel
  logs := by simp

def kwinBlock : Block Host.root where
  head := (⟨0, 0⟩, "    kde/plasma/kwin.bst:".toList)
  elem := "kde/plasma/kwin.bst".toList
  paths := [(⟨0, 0⟩, "    /root/.cache/buildstream/logs/kde/kwin/failed.log".toList)]
  reads := by decide +kernel
  logs := List.forall_mem_singleton.mpr (by decide +kernel)

/-- The log of `kwin` is stored with `dolphin`. -/
theorem log_misattributed :
    ¬∀ (host : Host) (s : State), Reachable host s →
      ∀ bs : List (Block host), Attributed host bs s := by
  intro h
  have hblocks := h Host.root (runCalls Host.root kwinFailure {}) ⟨_, rfl⟩ [dolphinBlock, kwinBlock]
  have hlog := hblocks.2.1.1
  unfold LogsOnly at hlog
  revert hlog
  decide +kernel

end XfceLinux.Dashboard
