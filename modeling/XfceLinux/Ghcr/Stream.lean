import XfceLinux.Lib.Machine
import XfceLinux.Lib.Text

/-!
# `scripts/ghcr-blob-stream.py`

`main` as a small-step program, one step for each statement that another party can
observe or make fail: the bearer call, the loop tests, `urlopen`, `resp.read`,
`out.write`, `sha.update`, `offset += len(buf)`, the exception handlers and the checks
after the loop. The registry, the token endpoint and stdout are the `Env`; stderr and
the sleeps between attempts are left out.

The running sha256 is the list of bytes it has consumed; `hexdigest` turns it into text.
-/

namespace XfceLinux.Ghcr

open Lib.Text Lib.Machine

def chunk : Nat := 4 * 1024 * 1024

def maxAttempts : Nat := 40

/-- `registry`, `repo` of `main`: the reference without tag and digest. -/
def parseRef (ref : Str) : Str × Str :=
  let (registry, rest) := partition '/' ref
  let repo := rsplitHead '@' rest
  let repo := if ':' ∈ rsplitLast '/' repo then rsplitHead ':' repo else repo
  (registry, repo)

def blobUrl (ref digest : Str) : Str :=
  let (registry, repo) := parseRef ref
  "https://".toList ++ registry ++ "/v2/".toList ++ repo ++ "/blobs/".toList ++ digest

/-- What `main` asks the registry for: `range` is the offset of a `Range: bytes=N-` header. -/
structure Request where
  url : Str
  authorization : Str
  range : Option Nat
deriving DecidableEq, Repr

/-- The exceptions `main` tells apart. -/
inductive Exc where
  /-- `urllib.error.HTTPError` with its status code -/
  | http (code : Nat)
  /-- `OSError`, `ValueError` or `http.client.HTTPException` -/
  | cut
deriving DecidableEq, Repr

/-- An open response: the pieces in which its body will arrive, and what `read` does
after the last of them (raise, or return `b""`). -/
structure Response where
  status : Nat
  pieces : List Bytes
  raisesAtEnd : Bool
deriving DecidableEq, Repr

/-- The bytes the response still delivers. -/
def Response.body (r : Response) : Bytes := r.pieces.flatten

/-- `resp.read(n)` -/
def Response.read (r : Response) (n : Nat) : Except Exc (Bytes × Response) :=
  match r.pieces with
  | [] => if r.raisesAtEnd then .error .cut else .ok ([], r)
  | p :: ps =>
    .ok (p.take n, { r with pieces := if p.drop n = [] then ps else p.drop n :: ps })

/-- What `urlopen` does: raise, or return a response with a success status. -/
inductive Answer where
  | raise (exc : Exc)
  | ok (resp : Response)
deriving DecidableEq, Repr

/-- The arguments and the outside world of one run. -/
structure Env where
  ref : Str
  digest : Str
  size : Int
  hexdigest : Bytes → Str
  /-- The `n`-th call of `bearer`: the token, or an exception. -/
  bearer : Nat → Option Str
  /-- The answer to the `n`-th blob request. -/
  server : Nat → Request → Answer
  /-- The `n`-th `out.write`: `none` when the buffer is accepted, `some k` when an
  `OSError` is raised after (at most) `k` bytes were accepted. -/
  sink : Nat → Option Nat
  /-- Whether `out.flush()` returns. -/
  flush : Bool

/-- How `main` ends: a return value, or an exception nothing catches. -/
inductive Outcome where
  | exit (code : Nat)
  | raised
deriving DecidableEq, Repr

/-- The statement `main` executes next. -/
inductive Pc where
  /-- `token = bearer(registry, repo)` -/
  | start
  /-- `while offset < size`, `attempt += 1`, the limit on attempts -/
  | outer
  /-- `urlopen(req)` and the test for 206 -/
  | connect
  /-- the inner `while offset < size` and `resp.read` -/
  | inner (resp : Response)
  /-- `out.write(buf)` -/
  | write (resp : Response) (buf : Bytes)
  /-- `sha.update(buf)` -/
  | update (resp : Response) (buf : Bytes)
  /-- `offset += len(buf)` -/
  | advance (resp : Response) (buf : Bytes)
  /-- the `except` clauses -/
  | caught (exc : Exc)
  /-- `out.flush()` and the checks of length and digest -/
  | finish
  | done (outcome : Outcome)
deriving DecidableEq, Repr

structure St where
  pc : Pc := .start
  offset : Nat := 0
  attempt : Nat := 0
  token : Str := []
  /-- the bytes the running sha256 has consumed -/
  sha : Bytes := []
  /-- the bytes stdout has accepted -/
  out : Bytes := []
  /-- how many times `bearer`, `urlopen` and `out.write` have been called -/
  bearers : Nat := 0
  requests : Nat := 0
  writes : Nat := 0
deriving DecidableEq, Repr

def init : St := {}

/-- The request built from `token` and `offset`. -/
def request (env : Env) (s : St) : Request where
  url := blobUrl env.ref env.digest
  authorization := "Bearer ".toList ++ s.token
  range := if s.offset ≠ 0 then some s.offset else none

/-- `token = bearer(registry, repo)`, then on to `next`. -/
def callBearer (env : Env) (s : St) (next : Pc) : St :=
  match env.bearer s.bearers with
  | some token => { s with pc := next, token, bearers := s.bearers + 1 }
  | none => { s with pc := .done .raised, bearers := s.bearers + 1 }

def outerStep (env : Env) (s : St) : St :=
  if (s.offset : Int) < env.size then
    if s.attempt + 1 > maxAttempts then
      { s with pc := .done (.exit 1), attempt := s.attempt + 1 }
    else { s with pc := .connect, attempt := s.attempt + 1 }
  else { s with pc := .finish }

def connectStep (env : Env) (s : St) : St :=
  match env.server s.requests (request env s) with
  | .raise exc => { s with pc := .caught exc, requests := s.requests + 1 }
  | .ok resp =>
    if s.offset ≠ 0 ∧ resp.status ≠ 206 then
      { s with pc := .done (.exit 1), requests := s.requests + 1 }
    else { s with pc := .inner resp, requests := s.requests + 1 }

def innerStep (env : Env) (s : St) (resp : Response) : St :=
  if (s.offset : Int) < env.size then
    match resp.read (min chunk (env.size - s.offset).toNat) with
    | .error exc => { s with pc := .caught exc }
    | .ok (buf, resp') =>
      if buf = [] then { s with pc := .outer } else { s with pc := .write resp' buf }
  else { s with pc := .outer }

def writeStep (env : Env) (s : St) (resp : Response) (buf : Bytes) : St :=
  match env.sink s.writes with
  | none => { s with pc := .update resp buf, out := s.out ++ buf, writes := s.writes + 1 }
  | some k =>
    { s with pc := .caught .cut, out := s.out ++ buf.take k, writes := s.writes + 1 }

def caughtStep (env : Env) (s : St) : Exc → St
  | .http code => if code = 401 then callBearer env s .outer else { s with pc := .outer }
  | .cut => { s with pc := .outer }

def finishStep (env : Env) (s : St) : St :=
  if env.flush then
    if (s.offset : Int) ≠ env.size then { s with pc := .done (.exit 1) }
    else if "sha256:".toList ++ env.hexdigest s.sha ≠ env.digest then
      { s with pc := .done (.exit 1) }
    else { s with pc := .done (.exit 0) }
  else { s with pc := .done .raised }

def step (env : Env) (s : St) : Option St :=
  match s.pc with
  | .start => some (callBearer env s .outer)
  | .outer => some (outerStep env s)
  | .connect => some (connectStep env s)
  | .inner resp => some (innerStep env s resp)
  | .write resp buf => some (writeStep env s resp buf)
  | .update resp buf => some { s with pc := .advance resp buf, sha := s.sha ++ buf }
  | .advance resp buf =>
    some { s with pc := .inner resp, offset := s.offset + buf.length }
  | .caught exc => some (caughtStep env s exc)
  | .finish => some (finishStep env s)
  | .done _ => none

/-- `s` is a moment of `main`. -/
def Moment (env : Env) (s : St) : Prop := Steps (step env) init s

/-- `main` returns `code`, leaving the state `s`. -/
def Returns (env : Env) (code : Nat) (s : St) : Prop :=
  Moment env s ∧ s.pc = .done (.exit code)

end XfceLinux.Ghcr
