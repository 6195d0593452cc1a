import XfceLinux.Release.Workflows

/-!
# What a promotion waits for

`promote-stable.yml` dispatches a stable build and polls `gh run list` for it, by workflow,
branch and commit. `wait_for_run` returns 0 when the newest run listed has completed
successfully. The dispatched run is not listed before it is visible, and until then an earlier
run of the same commit can answer in its place.

`wait_for_run` returns 0 only after the dispatched run has completed successfully, as long as
each poll that finds the newest listed run completed successfully finds the dispatched run
listed and no later one (`promotion_waits_for_own`).
-/

namespace XfceLinux.Release

open Lib.Transition

variable {Sha : Type}

/-! ## Runs are never lost -/

/-- Every run of `w` is still a run of `w'`, in its place. -/
def Grows (w w' : World Sha) : Prop :=
  ∀ (k : Nat) (r : Run Sha), w.runs[k]? = some r → ∃ s, w'.runs[k]? = some s ∧ r.Later s

theorem Run.Later.refl (r : Run Sha) : r.Later r := ⟨rfl, rfl, rfl, rfl, fun _ h => h⟩

theorem Grows.of_eq {w w' : World Sha} (h : w'.runs = w.runs) : Grows w w' :=
  fun _ r hr => ⟨r, h ▸ hr, .refl r⟩

theorem Grows.of_append {w w' : World Sha} {s : Run Sha} (h : w'.runs = w.runs ++ [s]) :
    Grows w w' := by
  intro k r hr
  have hk := (List.getElem?_eq_some_iff.1 hr).1
  exact ⟨r, by rw [h, List.getElem?_append_left hk, hr], .refl r⟩

theorem Grows.of_set {w w' : World Sha} {i : Nat} {r s : Run Sha} (hr : w.runs[i]? = some r)
    (hs : r.Later s) (h : w'.runs = w.runs.set i s) : Grows w w' := by
  intro k q hq
  rw [h]
  by_cases hik : i = k
  · subst hik
    rw [hr, Option.some_inj] at hq
    subst hq
    have hi := (List.getElem?_eq_some_iff.1 hr).1
    exact ⟨s, List.getElem?_set_self hi, hs⟩
  · exact ⟨q, by rw [List.getElem?_set_ne hik, hq], .refl q⟩

/-! ## The dispatched run -/

/-- The `k`-th run is `r`, which the promotion `n` of `sha` has dispatched, not before the
runs of the start. -/
structure Own (runs₀ : Nat) (w : World Sha) (n : Nat) (sha : Sha) (k : Nat) (r : Run Sha) :
    Prop where
  later : runs₀ ≤ k
  run : w.runs[k]? = some r
  workflow : r.workflow = .multiRunner
  ref : r.ref = .stable
  headSha : r.headSha = sha
  promotion : r.promotion = some n

/-- The promotion's own run has completed successfully. -/
def OwnSucceeded (runs₀ : Nat) (w : World Sha) (n : Nat) (sha : Sha) : Prop :=
  ∃ k r, Own runs₀ w n sha k r ∧ r.status = .completed .success

theorem Own.grows {runs₀ : Nat} {w w' : World Sha} {n : Nat} {sha : Sha} {k : Nat}
    {r : Run Sha} (h : Own runs₀ w n sha k r) (hGrows : Grows w w') :
    ∃ s, Own runs₀ w' n sha k s ∧ r.Later s := by
  obtain ⟨s, hs, hLater⟩ := hGrows k r h.run
  exact ⟨s, ⟨h.later, hs, hLater.workflow.trans h.workflow, hLater.ref.trans h.ref,
    hLater.headSha.trans h.headSha, hLater.promotion.trans h.promotion⟩, hLater⟩

theorem OwnSucceeded.grows {runs₀ : Nat} {w w' : World Sha} {n : Nat} {sha : Sha}
    (h : OwnSucceeded runs₀ w n sha) (hGrows : Grows w w') :
    OwnSucceeded runs₀ w' n sha := by
  obtain ⟨k, r, hOwn, hStatus⟩ := h
  obtain ⟨s, hs, hLater⟩ := hOwn.grows hGrows
  exact ⟨k, s, hs, hLater.completed _ hStatus⟩

/-- What holds of the job at each of its steps. -/
def Promised (runs₀ : Nat) (w : World Sha) : Job Sha → Prop
  | .promotion _ _ .push => True
  | .promotion _ sha .dispatch => w.stable = some sha
  | .promotion n sha (.wait .multiRunner _) => ∃ k r, Own runs₀ w n sha k r
  | .promotion n sha (.wait .liveIso _) => OwnSucceeded runs₀ w n sha
  | .promotion n sha .verify => OwnSucceeded runs₀ w n sha
  | .rollback .. => True

structure Accounted (runs₀ : Nat) (w : World Sha) : Prop where
  runs : runs₀ ≤ w.runs.length
  job : ∀ j, w.job = some j → Promised runs₀ w j

theorem Promised.grows {runs₀ : Nat} {w w' : World Sha} {j : Job Sha}
    (h : Promised runs₀ w j) (hGrows : Grows w w') (hStable : w'.stable = w.stable) :
    Promised runs₀ w' j := by
  cases j with
  | rollback => trivial
  | promotion n sha at_ =>
    cases at_ with
    | push => trivial
    | dispatch => exact hStable.trans h
    | verify => exact OwnSucceeded.grows h hGrows
    | wait workflow polls =>
      cases workflow with
      | liveIso => exact OwnSucceeded.grows h hGrows
      | multiRunner =>
        obtain ⟨k, r, hOwn⟩ := h
        obtain ⟨s, hs, -⟩ := hOwn.grows hGrows
        exact ⟨k, s, hs⟩

/-! ## What each step does to the runs -/

variable [DecidableEq Sha]

theorem promotionStep_grows {w w' : World Sha} {n : Nat} {sha : Sha} {at_ : PromotionStep}
    (h : promotionStep w n sha at_ = some w') : Grows w w' := by
  cases at_ with
  | push =>
    cases h
    exact .of_eq rfl
  | dispatch =>
    obtain ⟨v, hv, rfl⟩ := Option.map_eq_some_iff.1 h
    obtain ⟨head, -, rfl⟩ := Option.map_eq_some_iff.1 hv
    exact .of_append rfl
  | wait workflow polls =>
    cases h
    rw [waitStep_frame]
    exact .of_eq rfl
  | verify =>
    rw [promotionStep] at h
    split at h
    · cases h
      exact .of_eq rfl
    · cases h

theorem rollbackStep_runs {w w' : World Sha} {n : Nat} {target : Sha} {dry_run : Bool}
    {date : String} {at_ : RollbackStep}
    (h : rollbackStep w n target dry_run date at_ = some w') : w'.runs = w.runs := by
  cases at_ with
  | verify | copyStable | copyDated =>
    obtain ⟨i, -, rfl⟩ := Option.map_eq_some_iff.1 h
    rfl
  | moveBranch | summary =>
    cases h
    rfl

theorem step_grows {w w' : World Sha} {a : Act Sha} (h : step w a = some w') : Grows w w' := by
  cases a with
  | mainMoves sha =>
    cases h
    exact .of_eq rfl
  | promote sha | rollBack target dry_run =>
    rw [step] at h
    split at h
    · cases h
      exact .of_eq rfl
    · cases h
  | jobStep date =>
    obtain ⟨j, -, hj⟩ := Option.bind_eq_some_iff.1 h
    cases j with
    | promotion n sha at_ => exact promotionStep_grows hj
    | rollback n target dry_run at_ => exact .of_eq (rollbackStep_runs hj)
  | jobStops =>
    obtain ⟨j, -, rfl⟩ := Option.map_eq_some_iff.1 h
    exact .of_eq rfl
  | dispatched workflow ref push_image =>
    obtain ⟨head, -, rfl⟩ := Option.map_eq_some_iff.1 h
    exact .of_append rfl
  | run i a =>
    obtain ⟨r, hr, hs⟩ := Option.bind_eq_some_iff.1 h
    obtain ⟨s, hLater, rfl | ⟨t, date, k, -, -, -, rfl⟩⟩ := runStep_cases hs
    · exact .of_set hr hLater rfl
    · exact .of_set hr hLater rfl

/-! ## The newest listed run -/

/-- The last element of a list that meets `p`, with its place. -/
theorem exists_last_of_filter {α : Type*} {p : α → Bool} {l : List α} {a : α}
    (h : (l.filter p).getLast? = some a) :
    ∃ j : Nat, l[j]? = some a ∧ p a ∧ ∀ (i : Nat) b, l[i]? = some b → p b → i ≤ j := by
  induction l using List.reverseRecOn with
  | nil => cases h
  | append_singleton l b ih =>
    by_cases hb : p b
    · rw [List.filter_append, List.filter_singleton, hb, cond_true, List.getLast?_concat,
        Option.some_inj] at h
      subst h
      refine ⟨l.length, by simp, hb, fun i c hc _ => ?_⟩
      have hi := (List.getElem?_eq_some_iff.1 hc).1
      rw [List.length_append, List.length_singleton] at hi
      omega
    · rw [List.filter_append, List.filter_singleton, Bool.eq_false_iff.2 hb, cond_false,
        List.append_nil] at h
      obtain ⟨j, hj, ha, hLast⟩ := ih h
      have hjl := (List.getElem?_eq_some_iff.1 hj).1
      refine ⟨j, by rw [List.getElem?_append_left hjl, hj], ha, fun i c hc hp => ?_⟩
      rcases Nat.lt_or_ge i l.length with hi | hi
      · rw [List.getElem?_append_left hi] at hc
        exact hLast i c hc hp
      · rw [List.getElem?_append_right hi] at hc
        have hcb : c = b := by
          have := List.mem_of_getElem? hc
          simpa using this
        exact absurd (hcb ▸ hp) hb

/-- The `j`-th run is `r` and the newest that `gh run list` shows. -/
structure NewestListed (w : World Sha) (workflow : Workflow) (sha : Sha) (j : Nat)
    (r : Run Sha) : Prop where
  run : w.runs[j]? = some r
  listed : Listed workflow sha r
  newest : ∀ (i : Nat) s, w.runs[i]? = some s → Listed workflow sha s → i ≤ j

theorem exists_newestListed {w : World Sha} {workflow : Workflow} {sha : Sha} {r : Run Sha}
    (h : (gh_run_list w workflow sha).head? = some r) :
    ∃ j, NewestListed w workflow sha j r := by
  rw [gh_run_list, List.head?_take, if_neg (by decide), List.head?_reverse] at h
  obtain ⟨j, hj, hListed, hNewest⟩ := exists_last_of_filter h
  exact ⟨j, hj, hListed, hNewest⟩

/-- A poll returns 0 on the success of the newest listed run. -/
theorem newestListed_of_returns {w : World Sha} {workflow : Workflow} {sha : Sha}
    (h : pollOf w workflow sha = .returns) :
    ∃ j r, NewestListed w workflow sha j r ∧ r.status = .completed .success := by
  unfold pollOf at h
  split at h
  · cases h
  · rename_i r hHead
    obtain ⟨j, hj⟩ := exists_newestListed hHead
    refine ⟨j, r, hj, ?_⟩
    split at h
    · assumption
    · cases h
    · cases h

/-- A poll that finds the newest listed run completed successfully finds the run that the
promotion has dispatched listed, and no later run. -/
def OwnRunNewest (w : World Sha) (a : Act Sha) : Prop :=
  ∀ n sha polls date, w.job = some (.promotion n sha (.wait .multiRunner polls)) →
    a = .jobStep date → ∀ j r, NewestListed w .multiRunner sha j r →
      r.status = .completed .success → ∀ (k : Nat) s, w.runs[k]? = some s →
        s.promotion = some n → s.visible ∧ j ≤ k

theorem ownSucceeded_of_returns {runs₀ : Nat} {w : World Sha} {n : Nat} {sha : Sha}
    {polls : Nat} {date : String} (ha : OwnRunNewest w (.jobStep date))
    (hJob : w.job = some (.promotion n sha (.wait .multiRunner polls)))
    (hOwn : ∃ k r, Own runs₀ w n sha k r) (hPoll : pollOf w .multiRunner sha = .returns) :
    OwnSucceeded runs₀ w n sha := by
  obtain ⟨j, r, hNewest, hStatus⟩ := newestListed_of_returns hPoll
  obtain ⟨k, s, hOwn⟩ := hOwn
  obtain ⟨hVisible, hjk⟩ :=
    ha n sha polls date hJob rfl j r hNewest hStatus k s hOwn.run hOwn.promotion
  have hListed : Listed .multiRunner sha s := by
    simp [Listed, hVisible, hOwn.workflow, hOwn.ref, hOwn.headSha]
  have hkj : k = j := Nat.le_antisymm (hNewest.newest k s hOwn.run hListed) hjk
  subst hkj
  have hrs : s = r := Option.some_inj.1 (hOwn.run.symm.trans hNewest.run)
  exact ⟨k, s, hOwn, hrs ▸ hStatus⟩

theorem accounted_waitStep {runs₀ : Nat} {w : World Sha} {n : Nat} {sha : Sha}
    {workflow : Workflow} {polls : Nat} {date : String} (hw : Accounted runs₀ w)
    (ha : OwnRunNewest w (.jobStep date))
    (hJob : w.job = some (.promotion n sha (.wait workflow polls))) :
    Accounted runs₀ (waitStep w n sha workflow polls) := by
  have hPromised := hw.job _ hJob
  rw [waitStep_frame]
  refine ⟨hw.runs, fun j hj => ?_⟩
  suffices hj' : Promised runs₀ w j from hj'.grows (.of_eq rfl) rfl
  change (waitStep w n sha workflow polls).job = some j at hj
  unfold waitStep at hj
  split at hj
  · rename_i hPoll
    cases hj
    cases workflow with
    | liveIso => exact hPromised
    | multiRunner => exact ownSucceeded_of_returns ha hJob hPromised hPoll
  · cases hj
  · split at hj
    · cases hj
      cases workflow with
      | liveIso => exact hPromised
      | multiRunner => exact hPromised
    · cases hj

theorem accounted_promotionStep {runs₀ : Nat} {w w' : World Sha} {n : Nat} {sha : Sha}
    {at_ : PromotionStep} {date : String} (hw : Accounted runs₀ w)
    (ha : OwnRunNewest w (.jobStep date)) (hJob : w.job = some (.promotion n sha at_))
    (h : promotionStep w n sha at_ = some w') : Accounted runs₀ w' := by
  cases at_ with
  | push =>
    cases h
    refine ⟨hw.runs, fun j hj => ?_⟩
    cases hj
    rfl
  | dispatch =>
    obtain ⟨v, hv, rfl⟩ := Option.map_eq_some_iff.1 h
    obtain ⟨head, hHead, rfl⟩ := Option.map_eq_some_iff.1 hv
    have hStable : w.stable = some sha := hw.job _ hJob
    have hSha : sha = head := Option.some_inj.1 (hStable.symm.trans hHead)
    refine ⟨?_, fun j hj => ?_⟩
    · show runs₀ ≤ (w.runs ++ [_]).length
      rw [List.length_append]
      exact Nat.le_add_right_of_le hw.runs
    · cases hj
      exact ⟨w.runs.length, _, hw.runs, List.getElem?_concat_length, rfl, rfl, hSha.symm, rfl⟩
  | wait workflow polls =>
    cases h
    exact accounted_waitStep hw ha hJob
  | verify =>
    rw [promotionStep] at h
    split at h
    · cases h
      exact ⟨hw.runs, fun j hj => by cases hj⟩
    · cases h

theorem accounted_rollbackStep {runs₀ : Nat} {w w' : World Sha} {n : Nat} {target : Sha}
    {dry_run : Bool} {date : String} {at_ : RollbackStep} (hw : Accounted runs₀ w)
    (h : rollbackStep w n target dry_run date at_ = some w') : Accounted runs₀ w' := by
  refine ⟨by rw [rollbackStep_runs h]; exact hw.runs, fun j hj => ?_⟩
  cases at_ with
  | verify | copyStable | copyDated =>
    obtain ⟨i, -, rfl⟩ := Option.map_eq_some_iff.1 h
    cases hj
    trivial
  | moveBranch =>
    cases h
    cases hj
    trivial
  | summary =>
    cases h
    cases hj

theorem accounted_step {runs₀ : Nat} {w w' : World Sha} {a : Act Sha}
    (hw : Accounted runs₀ w) (ha : OwnRunNewest w a) (h : step w a = some w') :
    Accounted runs₀ w' := by
  have hGrows := step_grows h
  cases a with
  | mainMoves sha =>
    cases h
    exact ⟨hw.runs, fun j hj => (hw.job j hj).grows hGrows rfl⟩
  | promote sha | rollBack target dry_run =>
    rw [step] at h
    split at h
    · cases h
      refine ⟨hw.runs, fun j hj => ?_⟩
      cases hj
      trivial
    · cases h
  | jobStep date =>
    obtain ⟨j, hJob, hj⟩ := Option.bind_eq_some_iff.1 h
    cases j with
    | promotion n sha at_ => exact accounted_promotionStep hw ha hJob hj
    | rollback n target dry_run at_ => exact accounted_rollbackStep hw hj
  | jobStops =>
    obtain ⟨j, -, rfl⟩ := Option.map_eq_some_iff.1 h
    exact ⟨hw.runs, fun j hj => by cases hj⟩
  | dispatched workflow ref push_image =>
    obtain ⟨head, -, rfl⟩ := Option.map_eq_some_iff.1 h
    refine ⟨?_, fun j hj => (hw.job j hj).grows hGrows rfl⟩
    show runs₀ ≤ (w.runs ++ [_]).length
    rw [List.length_append]
    exact Nat.le_add_right_of_le hw.runs
  | run i a =>
    obtain ⟨r, hr, hs⟩ := Option.bind_eq_some_iff.1 h
    obtain ⟨s, hLater, rfl | ⟨t, date, k, -, -, -, rfl⟩⟩ := runStep_cases hs
    · refine ⟨?_, fun j hj => (hw.job j hj).grows hGrows rfl⟩
      show runs₀ ≤ (w.runs.set i s).length
      rw [List.length_set]
      exact hw.runs
    · refine ⟨?_, fun j hj => (hw.job j hj).grows hGrows rfl⟩
      show runs₀ ≤ (w.runs.set i s).length
      rw [List.length_set]
      exact hw.runs

/-- `wait_for_run "Build xfce-linux (Multi-Runner)"` has returned 0 in the promotion `n` of
`sha`. -/
def Waited (w : World Sha) (n : Nat) (sha : Sha) : Prop :=
  w.job = some (.promotion n sha .verify) ∨
    ∃ polls, w.job = some (.promotion n sha (.wait .liveIso polls))

/-- **A promotion waits for its own build, unless another run is listed in its place.** From
any history of runs, in every run of the system whose polls all meet `OwnRunNewest`: once
`wait_for_run` has returned 0, a run that was created by this promotion's dispatch has
completed successfully. -/
theorem promotion_waits_for_own {w₀ w : World Sha} {n : Nat} {sha : Sha}
    (hIdle : w₀.job = none) (h : Reaches step OwnRunNewest w₀ w) (hWaited : Waited w n sha) :
    OwnSucceeded w₀.runs.length w n sha := by
  have hStart : Accounted w₀.runs.length w₀ := by
    refine ⟨le_rfl, fun j hj => ?_⟩
    rw [hIdle] at hj
    cases hj
  have hAccounted : Accounted w₀.runs.length w :=
    h.invariant hStart fun _ _ _ hw ha hs => accounted_step hw ha hs
  rcases hWaited with hJob | ⟨polls, hJob⟩
  · exact hAccounted.job _ hJob
  · exact hAccounted.job _ hJob

/-! ## Two histories -/

/-- A run of the stable build of commit 7 that has ended before the promotion. -/
def earlierRun (conclusion : Conclusion) : Run Nat where
  workflow := .multiRunner
  ref := .stable
  headSha := 7
  push_image := true
  promotion := none
  visible := true
  status := .completed conclusion
  pushing := none

/-- The repository after that run, with `main` at commit 7. -/
def repository (conclusion : Conclusion) : World Nat where
  main := 7
  stable := some 7
  registry := []
  runs := [earlierRun conclusion]
  job := none
  jobs := 0

/-- No run has completed successfully yet. -/
def NoSuccess (w : World Nat) (_ : Act Nat) : Prop :=
  ∀ r ∈ w.runs, r.status ≠ .completed .success

instance (w : World Nat) (a : Act Nat) : Decidable (NoSuccess w a) :=
  inferInstanceAs (Decidable (∀ r ∈ w.runs, r.status ≠ .completed .success))

theorem NoSuccess.ownRunNewest {w : World Nat} {a : Act Nat} (h : NoSuccess w a) :
    OwnRunNewest w a := by
  intro n sha polls date _ _ j r hNewest hStatus
  exact absurd hStatus (h r (List.mem_of_getElem? hNewest.run))

/-- The dispatched run of the promotion of commit 7, and the tags it has pushed. -/
def ownRun (status : Status) (visible : Bool) (pushing : Option (String × Nat)) : Run Nat :=
  ⟨.multiRunner, .stable, 7, true, some 0, visible, status, pushing⟩

def builtTags : List (Tag Nat × Image Nat) :=
  [(.stable, ⟨7, 1⟩), (.stableOn "20260101", ⟨7, 1⟩), (.commit 7, ⟨7, 1⟩)]

/-- After an earlier failure the promotion polls in vain while its run is queued, and finds it
when it has built. -/
theorem promotion_waits_for_own_afterFailure :
    OwnSucceeded 1 (⟨7, some 7, builtTags, [earlierRun .failure,
      ownRun (.completed .success) true (some ("20260101", 3))],
      some (.promotion 0 7 (.wait .liveIso 0)), 1⟩ : World Nat) 0 7 := by
  have hJob : (repository .failure).job = none := rfl
  refine promotion_waits_for_own hJob ?_ (.inr ⟨0, rfl⟩)
  have hBuilt : Reaches step NoSuccess (repository .failure) (⟨7, some 7, builtTags,
      [earlierRun .failure, ownRun (.completed .success) true (some ("20260101", 3))],
      some (.promotion 0 7 (.wait .multiRunner 1)), 1⟩ : World Nat) :=
    reaches_of_runWithin [.promote 7, .jobStep "", .jobStep "", .run 1 .appears,
      .jobStep "", .run 1 .starts, .run 1 (.beginsPush "20260101"), .run 1 (.pushesTag true),
      .run 1 (.pushesTag true), .run 1 (.pushesTag true), .run 1 (.completes .success)]
      (by decide)
  refine (hBuilt.mono fun _ _ h => h.ownRunNewest).tail (a := .jobStep "") ?_ rfl
  intro n sha polls date hJob _ j r hNewest _ k s hs hPromotion
  cases hJob
  have hj : j < 2 := (List.getElem?_eq_some_iff.1 hNewest.run).1
  have hk : k < 2 := (List.getElem?_eq_some_iff.1 hs).1
  interval_cases k
  · cases hs
    cases hPromotion
  · cases hs
    exact ⟨rfl, by omega⟩

/-- **A promotion can take an earlier run for its own.** Commit 7 has been built before. The
first poll comes before the dispatched run is visible, finds the earlier success and returns
0. -/
theorem promotion_waits_for_earlier :
    ∃ w₀ w : World Nat, w₀.job = none ∧ Reaches step (fun _ _ => True) w₀ w ∧
      Waited w 0 7 ∧ ¬ OwnSucceeded w₀.runs.length w 0 7 := by
  refine ⟨repository .success, ⟨7, some 7, [],
    [earlierRun .success, ownRun .queued false none],
    some (.promotion 0 7 (.wait .liveIso 0)), 1⟩, rfl, ?_, .inr ⟨0, rfl⟩, ?_⟩
  · exact reaches_of_runWithin [.promote 7, .jobStep "", .jobStep "", .jobStep ""]
      (by decide)
  · rintro ⟨k, r, hOwn, hStatus⟩
    have hr := hOwn.run
    have hLater : 1 ≤ k := hOwn.later
    have hk : k < 2 := (List.getElem?_eq_some_iff.1 hr).1
    obtain rfl : k = 1 := by omega
    cases hr
    cases hStatus

end XfceLinux.Release
