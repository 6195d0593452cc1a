import XfceLinux.Ghcr.Sink

/-!
# A pipe as stdout

`cas-restore-stream.sh` gives `main` a pipe as its stdout. A pipe whose reader is gone never
takes another byte, so that the bytes of a failed write are not asked for and written again:
on a pipe exit status 0 certifies what was written (`pipe_exit_zero`).
-/

namespace XfceLinux.Ghcr

open Lib.Text Lib.Machine

/-! ## Running to the end -/

/-- The state in which `main` ends, from `s` on. -/
def complete (env : Env) (s : St) : St :=
  match _h : step env s with
  | none => s
  | some t => complete env t
termination_by measure env s
decreasing_by exact measure_move (move_of_step ‹_›)

theorem steps_complete (env : Env) (s : St) : Steps (step env) s (complete env s) := by
  induction s using complete.induct env with
  | case1 s h =>
    rw [complete]
    split
    · exact .refl s
    · rename_i t ht
      rw [h] at ht
      cases ht
  | case2 s t h ih =>
    rw [complete]
    split
    · exact .refl s
    · rename_i u hu
      obtain rfl : t = u := Option.some.inj (h.symm.trans hu)
      exact .head h ih

theorem halted_complete (env : Env) (s : St) : Halted (step env) (complete env s) := by
  induction s using complete.induct env with
  | case1 s h =>
    rw [complete]
    split
    · exact h
    · rename_i t ht
      rw [h] at ht
      cases ht
  | case2 s t h ih =>
    rw [complete]
    split
    · rename_i hnone
      rw [h] at hnone
      cases hnone
    · rename_i u hu
      obtain rfl : t = u := Option.some.inj (h.symm.trans hu)
      exact ih

theorem complete_eq {env : Env} {s t : St} (h : Steps (step env) s t)
    (ht : Halted (step env) t) : complete env s = t :=
  (steps_complete env s).halted_unique h (halted_complete env s) ht

/-- The exit status of the process in the state in which it ends; an exception gives 1. -/
def St.status (s : St) : Nat :=
  match s.pc with
  | .done (.exit code) => code
  | _ => 1

theorem returns_complete {env : Env} (h : (complete env init).status = 0) :
    Returns env 0 (complete env init) := by
  refine ⟨steps_complete env init, ?_⟩
  obtain ⟨o, ho⟩ := halted_iff.mp (halted_complete env init)
  unfold St.status at h
  rw [ho] at h ⊢
  cases o with
  | exit code => exact congrArg (Pc.done ∘ Outcome.exit) h
  | raised => cases h

/-! ## The pipe -/

/-- Once a write has failed, every later one fails. -/
def Pipe (env : Env) : Prop := ∀ i j, i ≤ j → (env.sink i).isSome → (env.sink j).isSome

/-- A write of the run so far has failed. -/
def Broken (env : Env) (s : St) : Prop := ∃ i < s.writes, (env.sink i).isSome

/-- Behind a failed write `main` makes no progress. -/
structure Piped (env : Env) (s : St) : Prop where
  pending : ∀ resp buf, s.pc = .write resp buf → (s.offset : Int) < env.size
  short : Broken env s → (s.offset : Int) < env.size
  idle : Broken env s → ∀ resp buf, s.pc ≠ .update resp buf ∧ s.pc ≠ .advance resp buf

theorem Piped.keep {env : Env} {s t : St} (h : Piped env s) (hoff : t.offset = s.offset)
    (hw : t.writes = s.writes)
    (hpending : ∀ resp buf, t.pc = .write resp buf → (s.offset : Int) < env.size)
    (hidle : Broken env s → ∀ resp buf, t.pc ≠ .update resp buf ∧ t.pc ≠ .advance resp buf) :
    Piped env t := by
  have hbroken : Broken env t ↔ Broken env s := by
    unfold Broken
    rw [hw]
  refine ⟨?_, ?_, ?_⟩
  · rw [hoff]
    exact hpending
  · rw [hbroken, hoff]
    exact h.short
  · rw [hbroken]
    exact hidle

theorem Piped.move {env : Env} (hpipe : Pipe env) {s t : St} (h : Piped env s)
    (hMove : Move env s t) : Piped env t := by
  cases hMove with
  | token | noToken | giveUp | attempt | leave | refused | notPartial | opened | complete
  | readRaised | readEmpty | retried | flushRaised | wrongSize | wrongDigest | verified =>
    exact h.keep rfl rfl (by simp) (by simp)
  | readSome hpc hlt hread hbuf => exact h.keep rfl rfl (fun _ _ _ => hlt) (by simp)
  | wrote hpc hsink =>
    -- a write that succeeds shows that none has failed before
    have hwhole : ¬ Broken env s := by
      rintro ⟨i, hi, hfailed⟩
      have hnow := hpipe i s.writes hi.le hfailed
      rw [hsink] at hnow
      cases hnow
    have hwhole' : ∀ t : St, t.writes = s.writes + 1 → ¬ Broken env t := by
      rintro t ht ⟨i, hi, hfailed⟩
      rw [ht] at hi
      rcases Nat.lt_succ_iff_lt_or_eq.mp hi with hi | rfl
      · exact hwhole ⟨i, hi, hfailed⟩
      · rw [hsink] at hfailed
        cases hfailed
    exact ⟨by simp, fun hb => absurd hb (hwhole' _ rfl), fun hb => absurd hb (hwhole' _ rfl)⟩
  | writeRaised hpc hsink =>
    exact ⟨by simp, fun _ => h.pending _ _ hpc, by simp⟩
  | hashed hpc =>
    have hwhole : ¬ Broken env s := fun hb => (h.idle hb _ _).1 hpc
    exact h.keep rfl rfl (by simp) fun hb => absurd hb hwhole
  | advanced hpc =>
    have hwhole : ¬ Broken env s := fun hb => (h.idle hb _ _).2 hpc
    exact ⟨by simp, fun hb => absurd hb hwhole, by simp⟩

theorem piped_moment {env : Env} (hpipe : Pipe env) {s : St} (h : Moment env s) : Piped env s :=
  h.invariant
    ⟨by simp [init], fun ⟨i, hi, _⟩ => absurd hi (Nat.not_lt_zero i), by simp [init]⟩
    fun _ _ => Piped.move hpipe

/-- When `main` returns 0 no write has failed. -/
theorem taken_whole {env : Env} (hpipe : Pipe env) {s : St} (h : Returns env 0 s) :
    ∀ i < s.writes, env.sink i = none := by
  obtain ⟨-, -, -, -, hver⟩ := spill_moment h.1
  have hsize := (hver h.2).1
  have hwhole : ¬ Broken env s := fun hb => by
    have := (piped_moment hpipe h.1).short hb
    omega
  intro i hi
  by_contra hsome
  exact hwhole ⟨i, hi, Option.isSome_iff_ne_none.mpr hsome⟩

/-- What a pipe has received when `main` returns 0. -/
theorem received_whole {env : Env} (hpipe : Pipe env) {s : St} (h : Returns env 0 s) :
    (s.out.length : Int) = env.size ∧ "sha256:".toList ++ env.hexdigest s.out = env.digest := by
  obtain ⟨hhash, -, hclean, -, hver⟩ := spill_moment h.1
  obtain ⟨hsize, hdigest⟩ := hver h.2
  have hwrites : CleanWrites env s := by
    intro i hi k hk
    rw [taken_whole hpipe h i hi] at hk
    cases hk
  have hout := hclean hwrites
  simp only [St.shaAhead, St.unhashed, h.2, Nat.add_zero, List.append_nil] at hhash hout
  rw [hout]
  exact ⟨by omega, hdigest⟩

/-- **Exit status 0 on a pipe.** Whatever the registry and the reader of the pipe do, when
`main` returns 0 every write was taken whole, and what the pipe has received has the length and
the digest asked for. -/
theorem pipe_exit_zero {env : Env} (hpipe : Pipe env) {s : St} (h : Returns env 0 s) :
    (∀ i < s.writes, env.sink i = none) ∧ (s.out.length : Int) = env.size ∧
      "sha256:".toList ++ env.hexdigest s.out = env.digest :=
  ⟨taken_whole hpipe h, received_whole hpipe h⟩

/-- The download of `abc` into a pipe whose reader leaves behind the second write. -/
def leaving : Env := { cutOnce with sink := fun n => if n < 2 then none else some 0 }

theorem pipe_leaving : Pipe leaving := by
  have hsink : ∀ i, (leaving.sink i).isSome ↔ 2 ≤ i := by
    intro i
    by_cases hi : i < 2 <;> simp [leaving] <;> omega
  intro i j hij hi
  rw [hsink] at hi ⊢
  exact hi.trans hij

theorem pipe_exit_zero_leaving :
    (runFor (step leaving) 30 init).requests = 3 ∧ (runFor (step leaving) 30 init).writes = 2 ∧
      (∀ i < 2, leaving.sink i = none) ∧
      ((runFor (step leaving) 30 init).out.length : Int) = 3 ∧
      "sha256:".toList ++ abcDigest (runFor (step leaving) 30 init).out =
        "sha256:".toList ++ abcHex :=
  have hreturns : Returns leaving 0 (runFor (step leaving) 30 init) :=
    ⟨steps_runFor 30 init, by decide⟩
  ⟨by decide, by decide, pipe_exit_zero pipe_leaving hreturns⟩

end XfceLinux.Ghcr
