import XfceLinux.Lib.Path
import XfceLinux.Lib.Regex
import XfceLinux.Dashboard.Model

/-!
# `tools/bst_dashboard/parser.py`

`parse_line` and `reset_state`. The regular expressions are written as the source has
them; the functions passed to `state.update` are definitions of their own, under the
source's names. A call reads the clock at most twice (`Clock`). The only exception that
can leave `parse_line` is the `ValueError` of `int` on a number of more than
`intMaxStrDigits` digits: the result is then `.error` of the state as it stands.
-/

namespace XfceLinux.Dashboard

open Lib Lib.Text Lib.Regex

/-- The interpreter and the account the dashboard runs under. -/
structure Host where
  unicode : Unicode
  /-- The home directory, for `expanduser`. -/
  home : Str
  /-- `datetime.strptime(s, "%a %b %d %H:%M:%S %Y").timestamp()`, or an exception. -/
  strptime : Str → Option ℚ

/-- The first and the second result of `time.time()` in one call of `parse_line`. -/
structure Clock where
  first : ℚ
  second : ℚ

/-! ## Regular expressions -/

/-- `\x1b\[[0-9;]*[mGKHF]|\x1b\[[0-9;]*m` -/
def ansi : Re :=
  let params := Re.star (.set fun c => range '0' '9' c || c == ';')
  .alt (cat [lit "\x1b[", params, .set (oneOf "mGKHF")]) (cat [lit "\x1b[", params, lit "m"])

/-- `=== Build started at (.+?) ===` -/
def buildHeaderRe : Re := cat [lit "=== Build started at ", .group 1 (lazyPlus dot), lit " ==="]

/-- Groups of `LINE_RE`: 1 `time`, 2 `hash`, 3 `ctx`, 4 `status`, 5 `msg`. -/
def lineRe : Re :=
  cat [.bos,
    lit "[", .group 1 (plus (.set fun c => range '0' '9' c || oneOf "-:" c)), lit "]",
    lit "[", .group 2 (plus (.set fun c => range '0' '9' c || range 'a' 'f' c || c == ' ')),
    lit "]",
    lit "[", .group 3 (plus (.set (· != ']'))), lit "]", plus space,
    .group 4 (.alt (cat [lit "START", plus space]) (.alt (lit "SUCCESS") (.alt (lit "FAILURE")
      (.alt (lit "SKIPPED") (.alt (cat [lit "STATUS", plus space])
        (.alt (cat [lit "INFO", plus space]) (.alt (cat [lit "WARN", plus space])
          (cat [lit "PULL", plus space])))))))),
    .star space, .group 5 (.star dot), .eos]

/-- `[a-z0-9_\-]+(?:/[a-zA-Z0-9_.\-]+)+\.log$` -/
def buildLogRe : Re :=
  cat [plus (.set fun c => range 'a' 'z' c || range '0' '9' c || oneOf "_-" c),
    plus (cat [lit "/", plus (.set fun c =>
      range 'a' 'z' c || range 'A' 'Z' c || range '0' '9' c || oneOf "_.-" c)]),
    lit ".log", .eos]

/-- `^Pipeline Summary\s*$` -/
def pipelineSummaryRe : Re := cat [.bos, lit "Pipeline Summary", .star space, .eos]

/-- `(\d+)` as group `n` -/
def number (u : Unicode) (n : Nat) : Re := .group n (plus (.set u.isDecimal))

/-- `^\s+Total:\s+(\d+)` -/
def summaryTotalRe (u : Unicode) : Re :=
  cat [.bos, plus space, lit "Total:", plus space, number u 1]

/-- `^\s+(Pull|Build) Queue:\s+processed (\d+), skipped (\d+), failed (\d+)` -/
def summaryQueueRe (u : Unicode) : Re :=
  cat [.bos, plus space, .group 1 (.alt (lit "Pull") (lit "Build")), lit " Queue:", plus space,
    lit "processed ", number u 2, lit ", skipped ", number u 3, lit ", failed ", number u 4]

/-- `^\s+([\w\-]+\.bst:)?kde/[\w/.\-]+\.bst:\s*$` -/
def failureElemRe (u : Unicode) : Re :=
  cat [.bos, plus space,
    opt (.group 1 (cat [plus (.set fun c => u.isWord c || c == '-'), lit ".bst:"])),
    lit "kde/", plus (.set fun c => u.isWord c || oneOf "/.-" c), lit ".bst:", .star space, .eos]

/-- `^\s+/root/\.cache/buildstream/logs/(\S+\.log)\s*$` -/
def bstLogPathRe : Re :=
  cat [.bos, plus space, lit "/root/.cache/buildstream/logs/",
    .group 1 (cat [plus (.set fun c => !isSpace c), lit ".log"]), .star space, .eos]

/-- `\s*(\w+):(.+)` -/
def elementRe (u : Unicode) : Re :=
  cat [.star space, .group 1 (plus (.set u.isWord)), lit ":", .group 2 (plus dot)]

/-- `\s+[A-Z]{2,5}\s+` -/
def timezoneRe : Re := cat [plus space, rep (.set (range 'A' 'Z')) 2 3, plus space]

/-! ## Updates of the state -/

def resetState (s : State) : State :=
  s.update fun s =>
    { s with
      active := [], completed := [], failures := [], summaryElements := []
      pulled := 0, successCount := 0, failureCount := 0, cachedCount := 0
      recentLines := [], buildStartTs := 0, buildEndTs := 0, catchingUp := true }

def setStart (ts : ℚ) (clean : Str) (s : State) : State :=
  { s with
    active := [], completed := [], failures := [], summaryElements := []
    pulled := 0, successCount := 0, failureCount := 0, cachedCount := 0
    recentLines := [clean], buildEndTs := 0, catchingUp := true, buildStartTs := ts }

def pipelineDone (time : ℚ) (clean : Str) (s : State) : State :=
  let failures :=
    if s.summaryElements ≠ [] then s.failures.filter fun f => f.element ∈ s.summaryElements
    else s.failures
  { s with
    active := [], catchingUp := false
    buildEndTs := if s.buildEndTs = 0 then time else s.buildEndTs
    failures
    failureCount := if s.summaryElements ≠ [] then failures.length else s.failureCount
    summaryElements := []
    recentLines := s.recentLines ++ [clean] }

def setTotal (total : Nat) (s : State) : State := { s with totalElements := total }

def backfillFailures (failed : Nat) (s : State) : State :=
  if s.failureCount = 0 ∧ failed > 0 then { s with failureCount := failed } else s

/-- The placeholder that `_add_failure_elem` appends. -/
def placeholder (elem : Str) (oid : Nat) : Item :=
  { element := elem, hash := [], duration := 0, status := .failure, log := some [], oid }

def addFailureElem (elem : Str) (s : State) : State :=
  let s := { s with summaryElements := s.summaryElements.insert elem }
  if s.failures.any fun f => f.element = elem then s
  else
    let failures := s.failures ++ [placeholder elem s.nextOid]
    { s with
      failures, failureCount := max s.failureCount failures.length, nextOid := s.nextOid + 1 }

/-- `not f.get("log")` -/
def Item.lacksLog (f : Item) : Bool := f.log.all (· = [])

/-- `f["log"] = path` -/
def Item.setLog (path : Str) (f : Item) : Item := { f with log := some path }

def setFailLog (path : Str) (s : State) : State :=
  match s.failures.reverse.find? Item.lacksLog with
  | none => s
  | some f =>
    { s with
      failures :=
        (Dict.modifyFirst Item.lacksLog (Item.setLog path) s.failures.reverse).reverse
    }.writeThrough f.oid (Item.setLog path)

/-- `_add` and `_add_recent` -/
def addRecent (line : Str) (s : State) : State :=
  { s with recentLines := s.recentLines ++ [line] }

def start (element hash log : Str) (time : ℚ) (s : State) : State :=
  { s with active := Dict.set s.active hash { element, hash, start := time, log } }

def done (element hash : Str) (clock : Clock) (s : State) : State :=
  let entry := Dict.get? s.active hash
  let duration := match entry with
    | some e => truncate (clock.first - e.start)
    | none => 0
  { s with
    active := Dict.pop s.active hash
    completed := s.completed ++
      [{ element, hash, duration, status := .success, log := none, oid := s.nextOid }]
    successCount := s.successCount + 1
    buildEndTs := if entry.isSome then clock.second else clock.first
    nextOid := s.nextOid + 1 }

/-- The catch-up entry that `_fail` looks for: same element, no hash. -/
def Item.isPlaceholder (element : Str) (f : Item) : Bool := f.element = element && f.hash = []

/-- `f.update(item)`: the dict `f` takes the values of `item`. -/
def Item.overwrite (item f : Item) : Item := { item with oid := f.oid }

/-- The part of `_fail` that enters `item` into `failures`. -/
def recordFailure (item : Item) (s : State) : State :=
  if s.failures.any fun f => f.hash = item.hash then s
  else
    match s.failures.find? (Item.isPlaceholder item.element) with
    | some f =>
      { s with
        failures := Dict.modifyFirst (Item.isPlaceholder item.element) item.overwrite s.failures
      }.writeThrough f.oid item.overwrite
    | none => { s with failures := s.failures ++ [item] }

def fail (element hash : Str) (clock : Clock) (s : State) : State :=
  match Dict.get? s.active hash with
  | none => s
  | some entry =>
    let item : Item :=
      { element, hash, duration := truncate (clock.first - entry.start), status := .failure
        log := some entry.log, oid := s.nextOid }
    let s := recordFailure item { s with
      active := Dict.pop s.active hash
      completed := s.completed ++ [item]
      nextOid := s.nextOid + 1 }
    { s with failureCount := s.failures.length, buildEndTs := clock.second }

def skipPull (s : State) : State := { s with cachedCount := s.cachedCount + 1 }

def pull (s : State) : State := { s with pulled := s.pulled + 1 }

/-! ## Reading a line -/

/-- `os.path.expanduser("~/.cache/buildstream/logs")` -/
def bstLogs (host : Host) : Str := Path.expanduser host.home "/.cache/buildstream/logs".toList

/-- `clean` of `parse_line` -/
def cleanLine (raw : Str) : Str := rstrip isSpace (sub ansi [] raw)

/-- `ts` of `parse_line`: the date of a header, or the present time. -/
def headerTime (host : Host) (clock : Clock) (date : Str) : ℚ :=
  (host.strptime (strip isSpace (sub timezoneRe [' '] date))).getD clock.first

/-- The element named by a Failure Summary line, if `FAILURE_ELEM_RE` recognises it. -/
def failureElem (host : Host) (clean : Str) : Option Str :=
  if (matchStart (failureElemRe host.unicode) clean).isSome then
    some (rsplitLast ':' (rstrip (· == ':') (strip isSpace clean)))
  else none

/-- The host path of a log path line. -/
def failureLog (host : Host) (clean : Str) : Option Str :=
  (matchStart bstLogPathRe clean).map fun m => Path.join (bstLogs host) (m.group 1)

/-- The local variables of `parse_line` for a structured line. -/
structure Event where
  status : Str
  action : Str
  short : Str
  hash : Str
  msg : Str
  isTop : Bool
deriving DecidableEq, Repr

def eventOf (host : Host) (m : Cur) : Event :=
  let ctx := strip isSpace (m.group 3)
  let msg := strip isSpace (m.group 5)
  let (action, element) := match matchStart (elementRe host.unicode) ctx with
    | some cm => (cm.group 1, rsplitLast ':' (cm.group 2))
    | none => (ctx, ctx)
  { status := strip isSpace (m.group 4)
    action
    short := ["kde-build-meta.bst:", "freedesktop-sdk.bst:", "gnome-build-meta.bst:"].foldl
      (fun short pre => removeAll pre.toList short) element
    hash := strip isSpace (m.group 2)
    msg
    isTop := (search buildLogRe msg).isSome }

/-- The structured line that `clean` is, if `LINE_RE` matches it. -/
def event? (host : Host) (clean : Str) : Option Event :=
  (matchStart lineRe clean).map (eventOf host)

/-- `host_log` of a START event -/
def Event.hostLog (host : Host) (e : Event) : Str :=
  if ".log".toList.isSuffixOf e.msg then Path.join (bstLogs host) e.msg else []

def Event.recent (e : Event) : Str :=
  '[' :: padRight 7 e.status ++ "] ".toList ++ e.short ++ "  ".toList ++ e.msg

/-- The part of `parse_line` behind `LINE_RE`. -/
def applyEvent (host : Host) (clock : Clock) (e : Event) (s : State) : State :=
  let s := s.update (addRecent e.recent)
  if e.action = "build".toList ∧ e.isTop ∧ e.status = "START".toList then
    s.update (start e.short e.hash (e.hostLog host) clock.first)
  else if e.action = "build".toList ∧ e.isTop ∧ e.status = "SUCCESS".toList then
    s.update (done e.short e.hash clock)
  else if e.action = "build".toList ∧ e.status = "FAILURE".toList then
    s.update (fail e.short e.hash clock)
  else if e.action = "pull".toList then
    if e.status = "SKIPPED".toList ∧ contains "Pull".toList e.msg then s.update skipPull
    else if e.status = "SUCCESS".toList ∧ contains "Pull".toList e.msg then s.update pull
    else s
  else s

/-- The `SUMMARY_TOTAL_RE` part of `parse_line` -/
def parseTotal (host : Host) (clean : Str) (s : State) : Except State State :=
  match matchStart (summaryTotalRe host.unicode) clean with
  | none => .ok s
  | some tm =>
    match parseInt host.unicode (tm.group 1) with
    | none => .error s
    | some total => .ok (s.update (setTotal total))

/-- The `SUMMARY_QUEUE_RE` part of `parse_line` -/
def parseQueue (host : Host) (clean : Str) (s : State) : Except State State :=
  match matchStart (summaryQueueRe host.unicode) clean with
  | none => .ok s
  | some qm =>
    if qm.group 1 = "Build".toList then
      match parseInt host.unicode (qm.group 4) with
      | none => .error s
      | some failed => .ok (s.update (backfillFailures failed))
    else .ok s

/-- The `FAILURE_ELEM_RE` and `BST_LOG_PATH_RE` parts of `parse_line` -/
def parseFailureBlock (host : Host) (clean : Str) (s : State) : State :=
  let s := match failureElem host clean with
    | some elem => s.update (addFailureElem elem)
    | none => s
  match failureLog host clean with
  | some path => s.update (setFailLog path)
  | none => s

/-- The rest of `parse_line`: a structured line, or a line for the recent log only. -/
def parseRest (host : Host) (clock : Clock) (clean : Str) (s : State) : State :=
  match event? host clean with
  | some e => applyEvent host clock e s
  | none =>
    if (List.replicate 8 ' ').isPrefixOf clean then s else s.update (addRecent (clean.take 200))

def parseLine (host : Host) (clock : Clock) (raw : Str) (s : State) : Except State State :=
  let clean := cleanLine raw
  if clean = [] then .ok s
  else
    match search buildHeaderRe clean with
    | some hm => .ok (s.update (setStart (headerTime host clock (hm.group 1)) clean))
    | none =>
      if (matchStart pipelineSummaryRe clean).isSome then
        .ok (s.update (pipelineDone clock.first clean))
      else do
        let s ← parseTotal host clean s
        let s ← parseQueue host clean s
        return parseRest host clock clean (parseFailureBlock host clean s)

/-- The state after a call of `parse_line`, whether it returns or raises. -/
def afterLine (host : Host) (clock : Clock) (raw : Str) (s : State) : State :=
  match parseLine host clock raw s with
  | .ok s => s
  | .error s => s

end XfceLinux.Dashboard
