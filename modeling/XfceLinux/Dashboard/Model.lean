import XfceLinux.Lib.Dict
import XfceLinux.Lib.Text

/-!
# `tools/bst_dashboard/model.py`

The build state of the dashboard and its snapshot. Times are exact rationals.

The dict of a live failure is put into both `completed` and `failures`, and the parser
later changes failures in place. An `Item` therefore carries the identity of its dict, and
a change made through `failures` is repeated on the item of `completed` with the same
identity (`State.writeThrough`).
-/

namespace XfceLinux.Dashboard

open Lib Lib.Text

/-- A job of `State.active`, with the keys that `_enrich_cmake` may add to it. -/
structure Job where
  element : Str
  hash : Str
  start : ℚ
  log : Str
  cmakeDone : Option Nat := none
  cmakeTotal : Option Nat := none
  rustCrates : Option Nat := none
  rustDone : Option Bool := none
deriving DecidableEq

inductive Status where
  | success
  | failure
deriving DecidableEq, Repr

/-- A record of `State.completed` or `State.failures`. -/
structure Item where
  element : Str
  hash : Str
  duration : Int
  status : Status
  /-- Records of successful builds have no log. -/
  log : Option Str
  /-- The identity of the dict. -/
  oid : Nat
deriving DecidableEq

structure State where
  active : List (Str × Job) := []
  completed : List Item := []
  failures : List Item := []
  summaryElements : List Str := []
  pulled : Nat := 0
  successCount : Nat := 0
  failureCount : Nat := 0
  cachedCount : Nat := 0
  totalElements : Nat := 0
  recentLines : List Str := []
  buildStartTs : ℚ := 0
  buildEndTs : ℚ := 0
  catchingUp : Bool := true
  version : Nat := 0
  /-- The identity of the next dict. -/
  nextOid : Nat := 0
deriving DecidableEq

def State.update (s : State) (fn : State → State) : State :=
  { fn s with version := (fn s).version + 1 }

/-- A write to the dict `oid` as it is seen through `completed`. -/
def State.writeThrough (s : State) (oid : Nat) (g : Item → Item) : State :=
  { s with completed := s.completed.map fun c => if c.oid = oid then g c else c }

/-- `int(x)` of a float -/
def truncate (x : ℚ) : Int := x.num.tdiv x.den

/-- What `State.snapshot` reads besides the state. -/
structure Host.Now (σ : Type) where
  time : ℚ
  buildRunning : Bool
  sysinfo : σ

/-- The dictionary returned by `State.snapshot`. -/
structure Snapshot (σ : Type) where
  active : List Job
  completed : List Item
  failures : List Item
  pulled : Nat
  success : Nat
  failure : Nat
  cached : Nat
  done : Nat
  total : Nat
  recent : List Str
  elapsed : Int
  live : Bool
  catchingUp : Bool
  buildRunning : Bool
  version : Nat
  sysinfo : σ
deriving DecidableEq

/-- `live` of `State.snapshot` -/
def State.live (s : State) : Bool := !s.active.isEmpty || s.catchingUp

/-- `elapsed` of `State.snapshot` -/
def State.elapsed (s : State) (time : ℚ) : Int :=
  if s.live then if s.buildStartTs ≠ 0 then truncate (time - s.buildStartTs) else 0
  else if s.buildEndTs ≠ 0 ∧ s.buildStartTs ≠ 0 then truncate (s.buildEndTs - s.buildStartTs)
  else 0

def State.snapshot {σ : Type} (s : State) (now : Host.Now σ) : Snapshot σ where
  active := Dict.values s.active
  completed := lastN 60 s.completed
  failures := s.failures
  pulled := s.pulled
  success := s.successCount
  failure := s.failureCount
  cached := s.cachedCount
  done := s.successCount + s.cachedCount + s.pulled + s.failureCount
  total := s.totalElements
  recent := lastN 80 s.recentLines
  elapsed := s.elapsed now.time
  live := s.live
  catchingUp := s.catchingUp
  buildRunning := now.buildRunning
  version := s.version
  sysinfo := now.sysinfo

end XfceLinux.Dashboard
