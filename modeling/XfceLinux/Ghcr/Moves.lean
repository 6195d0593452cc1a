import XfceLinux.Ghcr.Stream

/-!
# The transitions of `main`

`Move env s t` lists every transition of `step` with its guard (`move_of_step`), so that
an invariant is one case for each transition. Two facts hold for every environment: at
most `maxAttempts` blob requests are made (`Budget`), and `main` comes to an end
(`exists_done`).
-/

namespace XfceLinux.Ghcr

open Lib.Text Lib.Machine

/-- The transitions of `main`. -/
inductive Move (env : Env) (s : St) : St → Prop
  | token {tok : Str} (hpc : s.pc = .start ∨ s.pc = .caught (.http 401))
      (h : env.bearer s.bearers = some tok) :
      Move env s { s with pc := .outer, token := tok, bearers := s.bearers + 1 }
  | noToken (hpc : s.pc = .start ∨ s.pc = .caught (.http 401))
      (h : env.bearer s.bearers = none) :
      Move env s { s with pc := .done .raised, bearers := s.bearers + 1 }
  | giveUp (hpc : s.pc = .outer) (hlt : (s.offset : Int) < env.size)
      (h : maxAttempts < s.attempt + 1) :
      Move env s { s with pc := .done (.exit 1), attempt := s.attempt + 1 }
  | attempt (hpc : s.pc = .outer) (hlt : (s.offset : Int) < env.size)
      (h : s.attempt + 1 ≤ maxAttempts) :
      Move env s { s with pc := .connect, attempt := s.attempt + 1 }
  | leave (hpc : s.pc = .outer) (hge : env.size ≤ s.offset) :
      Move env s { s with pc := .finish }
  | refused {exc : Exc} (hpc : s.pc = .connect)
      (h : env.server s.requests (request env s) = .raise exc) :
      Move env s { s with pc := .caught exc, requests := s.requests + 1 }
  | notPartial {resp : Response} (hpc : s.pc = .connect)
      (h : env.server s.requests (request env s) = .ok resp)
      (hoff : s.offset ≠ 0) (hstatus : resp.status ≠ 206) :
      Move env s { s with pc := .done (.exit 1), requests := s.requests + 1 }
  | opened {resp : Response} (hpc : s.pc = .connect)
      (h : env.server s.requests (request env s) = .ok resp)
      (hok : s.offset = 0 ∨ resp.status = 206) :
      Move env s { s with pc := .inner resp, requests := s.requests + 1 }
  | complete {resp : Response} (hpc : s.pc = .inner resp) (hge : env.size ≤ s.offset) :
      Move env s { s with pc := .outer }
  | readRaised {resp : Response} {exc : Exc} (hpc : s.pc = .inner resp)
      (hlt : (s.offset : Int) < env.size)
      (h : resp.read (min chunk (env.size - s.offset).toNat) = .error exc) :
      Move env s { s with pc := .caught exc }
  | readEmpty {resp resp' : Response} (hpc : s.pc = .inner resp)
      (hlt : (s.offset : Int) < env.size)
      (h : resp.read (min chunk (env.size - s.offset).toNat) = .ok ([], resp')) :
      Move env s { s with pc := .outer }
  | readSome {resp resp' : Response} {buf : Bytes} (hpc : s.pc = .inner resp)
      (hlt : (s.offset : Int) < env.size)
      (h : resp.read (min chunk (env.size - s.offset).toNat) = .ok (buf, resp'))
      (hbuf : buf ≠ []) :
      Move env s { s with pc := .write resp' buf }
  | wrote {resp : Response} {buf : Bytes} (hpc : s.pc = .write resp buf)
      (h : env.sink s.writes = none) :
      Move env s { s with pc := .update resp buf, out := s.out ++ buf, writes := s.writes + 1 }
  | writeRaised {resp : Response} {buf : Bytes} {k : Nat} (hpc : s.pc = .write resp buf)
      (h : env.sink s.writes = some k) :
      Move env s
        { s with pc := .caught .cut, out := s.out ++ buf.take k, writes := s.writes + 1 }
  | hashed {resp : Response} {buf : Bytes} (hpc : s.pc = .update resp buf) :
      Move env s { s with pc := .advance resp buf, sha := s.sha ++ buf }
  | advanced {resp : Response} {buf : Bytes} (hpc : s.pc = .advance resp buf) :
      Move env s { s with pc := .inner resp, offset := s.offset + buf.length }
  | retried {exc : Exc} (hpc : s.pc = .caught exc) (h : exc ≠ .http 401) :
      Move env s { s with pc := .outer }
  | flushRaised (hpc : s.pc = .finish) (h : env.flush = false) :
      Move env s { s with pc := .done .raised }
  | wrongSize (hpc : s.pc = .finish) (hflush : env.flush = true)
      (h : (s.offset : Int) ≠ env.size) : Move env s { s with pc := .done (.exit 1) }
  | wrongDigest (hpc : s.pc = .finish) (hflush : env.flush = true)
      (h : (s.offset : Int) = env.size)
      (hd : "sha256:".toList ++ env.hexdigest s.sha ≠ env.digest) :
      Move env s { s with pc := .done (.exit 1) }
  | verified (hpc : s.pc = .finish) (hflush : env.flush = true)
      (h : (s.offset : Int) = env.size)
      (hd : "sha256:".toList ++ env.hexdigest s.sha = env.digest) :
      Move env s { s with pc := .done (.exit 0) }

theorem move_callBearer {env : Env} {s : St}
    (hpc : s.pc = .start ∨ s.pc = .caught (.http 401)) :
    Move env s (callBearer env s .outer) := by
  unfold callBearer
  split
  · exact .token hpc ‹_›
  · exact .noToken hpc ‹_›

theorem move_outerStep {env : Env} {s : St} (hpc : s.pc = .outer) :
    Move env s (outerStep env s) := by
  unfold outerStep
  split
  · rename_i hlt
    split
    · exact .giveUp hpc hlt (by omega)
    · exact .attempt hpc hlt (by omega)
  · exact .leave hpc (by omega)

theorem move_connectStep {env : Env} {s : St} (hpc : s.pc = .connect) :
    Move env s (connectStep env s) := by
  unfold connectStep
  split
  · exact .refused hpc ‹_›
  · rename_i resp h
    split
    · rename_i hbad
      exact .notPartial hpc h hbad.1 hbad.2
    · rename_i hok
      exact .opened hpc h (by tauto)

theorem move_innerStep {env : Env} {s : St} {resp : Response} (hpc : s.pc = .inner resp) :
    Move env s (innerStep env s resp) := by
  unfold innerStep
  split
  · rename_i hlt
    split
    · exact .readRaised hpc hlt ‹_›
    · rename_i buf resp' h
      split
      · rename_i hbuf
        subst hbuf
        exact .readEmpty hpc hlt h
      · exact .readSome hpc hlt h ‹_›
  · exact .complete hpc (by omega)

theorem move_writeStep {env : Env} {s : St} {resp : Response} {buf : Bytes}
    (hpc : s.pc = .write resp buf) : Move env s (writeStep env s resp buf) := by
  unfold writeStep
  split
  · exact .wrote hpc ‹_›
  · exact .writeRaised hpc ‹_›

theorem move_caughtStep {env : Env} {s : St} {exc : Exc} (hpc : s.pc = .caught exc) :
    Move env s (caughtStep env s exc) := by
  cases exc with
  | cut => exact .retried hpc (by simp)
  | http code =>
    simp only [caughtStep]
    split
    · rename_i hcode
      subst hcode
      exact move_callBearer (.inr hpc)
    · exact .retried hpc (by simpa using ‹¬code = 401›)

theorem move_finishStep {env : Env} {s : St} (hpc : s.pc = .finish) :
    Move env s (finishStep env s) := by
  unfold finishStep
  split
  · rename_i hflush
    split
    · exact .wrongSize hpc hflush ‹_›
    · rename_i hsize
      have hsize' : (s.offset : Int) = env.size := by simpa using hsize
      split
      · exact .wrongDigest hpc hflush hsize' ‹_›
      · rename_i hd
        exact .verified hpc hflush hsize' (by simpa using hd)
  · exact .flushRaised hpc (by simpa using ‹¬env.flush = true›)

/-- Every step of `main` is one of the transitions. -/
theorem move_of_step {env : Env} {s t : St} (h : step env s = some t) : Move env s t := by
  unfold step at h
  split at h <;> cases h
  · exact move_callBearer (.inl ‹_›)
  · exact move_outerStep ‹_›
  · exact move_connectStep ‹_›
  · exact move_innerStep ‹_›
  · exact move_writeStep ‹_›
  · exact .hashed ‹_›
  · exact .advanced ‹_›
  · exact move_caughtStep ‹_›
  · exact move_finishStep ‹_›

theorem Moment.invariant {env : Env} {P : St → Prop} {s : St} (h : Moment env s)
    (h₀ : P init) (hMove : ∀ a b, P a → Move env a b → P b) : P s :=
  Steps.invariant h h₀ fun a b ha hab => hMove a b ha (move_of_step hab)

theorem halted_iff {env : Env} {s : St} :
    Halted (step env) s ↔ ∃ o, s.pc = .done o := by
  unfold Halted step
  cases s.pc <;> simp

/-! ## The limit on attempts -/

/-- The requests made so far against the attempts counted so far. -/
def Budget (s : St) : Prop :=
  match s.pc with
  | .connect => s.requests + 1 = s.attempt ∧ s.attempt ≤ maxAttempts
  | .done _ => s.requests ≤ maxAttempts
  | _ => s.requests = s.attempt ∧ s.attempt ≤ maxAttempts

theorem Budget.move {env : Env} {s t : St} (h : Budget s) (hMove : Move env s t) :
    Budget t := by
  cases hMove with
  | token hpc | noToken hpc =>
    rcases hpc with hpc | hpc <;> simp only [Budget, hpc] at h ⊢ <;> omega
  | giveUp hpc | attempt hpc | leave hpc | refused hpc | notPartial hpc | opened hpc
  | complete hpc | readRaised hpc | readEmpty hpc | readSome hpc | wrote hpc
  | writeRaised hpc | hashed hpc | advanced hpc | retried hpc | flushRaised hpc
  | wrongSize hpc | wrongDigest hpc | verified hpc =>
    simp only [Budget, hpc] at h ⊢
    omega

theorem budget_moment {env : Env} {s : St} (h : Moment env s) : Budget s :=
  h.invariant (by simp [Budget, init]) fun _ _ => Budget.move

theorem requests_le {env : Env} {s : St} (h : Moment env s) : s.requests ≤ maxAttempts := by
  have hb := budget_moment h
  unfold Budget at hb
  split at hb <;> omega

/-! ## Termination -/

/-- The pieces a response still has, each with its bytes: what every `read` decreases. -/
def Response.weight (r : Response) : Nat := (r.pieces.map fun p => p.length + 1).sum

theorem weight_read {r r' : Response} {n : Nat} {buf : Bytes} (hn : 0 < n)
    (h : r.read n = .ok (buf, r')) (hbuf : buf ≠ []) : r'.weight < r.weight := by
  unfold Response.read at h
  split at h
  · split at h <;> cases h
    exact absurd rfl hbuf
  · rename_i p ps hp
    cases h
    simp only [Response.weight, hp, List.map_cons, List.sum_cons]
    split
    · omega
    · simp only [List.map_cons, List.sum_cons, List.length_drop]
      have : 0 < p.length := List.length_pos_iff.mpr (by rintro rfl; simp at hbuf)
      omega

/-- The weight of the response that the next `urlopen` would open. -/
def answerWeight (env : Env) (s : St) : Nat :=
  match env.server s.requests (request env s) with
  | .raise _ => 0
  | .ok resp => resp.weight

/-- The position of a statement within its attempt; it decreases with every step that
starts no new attempt. -/
def rank (env : Env) (s : St) : Nat :=
  match s.pc with
  | .done _ => 0
  | .finish => 1
  | .outer => 2
  | .start | .caught _ => 3
  | .inner r => 4 + 4 * r.weight
  | .advance r _ => 5 + 4 * r.weight
  | .update r _ => 6 + 4 * r.weight
  | .write r _ => 7 + 4 * r.weight
  | .connect => 5 + 4 * answerWeight env s

/-- Attempts left, then position within the attempt. -/
def measure (env : Env) (s : St) : Nat × Nat := (maxAttempts + 1 - s.attempt, rank env s)

theorem measure_move {env : Env} {s t : St} (hMove : Move env s t) :
    Prod.Lex (· < ·) (· < ·) (measure env t) (measure env s) := by
  cases hMove with
  | attempt hpc hlt h =>
    exact .left _ _ (by simp only [maxAttempts] at h ⊢; omega)
  | giveUp hpc => exact Prod.lex_def.mpr (by simp [measure, rank, hpc]; omega)
  | token hpc | noToken hpc =>
    refine .right _ ?_
    rcases hpc with hpc | hpc <;> simp [rank, hpc]
  | opened hpc h => exact .right _ (by simp [rank, hpc, answerWeight, h])
  | @readSome resp resp' buf hpc hlt h hbuf =>
    have := weight_read (by simp only [chunk]; omega) h hbuf
    exact .right _ (by simp only [rank, hpc]; omega)
  | advanced hpc | hashed hpc | wrote hpc | writeRaised hpc | retried hpc | complete hpc
  | readRaised hpc | readEmpty hpc | refused hpc | notPartial hpc | leave hpc
  | flushRaised hpc | wrongSize hpc | wrongDigest hpc | verified hpc =>
    exact .right _ (by simp only [rank, hpc]; omega)

/-- `main` comes to an end, whatever the environment does. -/
theorem exists_done (env : Env) : ∃ s o, Moment env s ∧ s.pc = .done o := by
  obtain ⟨s, hs, hh⟩ := @exists_halted _ (step env) _ _
    (WellFounded.prod_lex (Nat.lt_wfRel.wf) (Nat.lt_wfRel.wf)) (measure env)
    (fun a b hab => measure_move (move_of_step hab)) init
  obtain ⟨o, ho⟩ := halted_iff.mp hh
  exact ⟨s, o, hs, ho⟩

end XfceLinux.Ghcr
