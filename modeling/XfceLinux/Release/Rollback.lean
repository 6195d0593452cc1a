import XfceLinux.Release.Promotion

/-!
# What a rollback leaves

`rollback-stable.yml` copies the image of the target commit onto the tag `stable`, then onto a
dated tag, and then moves the branch `stable` to the target. It shares the concurrency group of
the promotions, so no promotion moves the branch meanwhile. The builds that earlier promotions
have dispatched are in another group: they go on, and push `stable` when they finish.

From the moment at which the rollback moves the branch until the branch is moved again, the tag
denotes an image of the target and the branch points at it, as long as no build of another
commit that was dispatched before that moment pushes the tag after the rollback has copied it,
and no later rollback to another commit copies it (`rollback_kept`).
-/

namespace XfceLinux.Release

open Lib.Transition

variable {Sha : Type}

/-! ## Tags -/

theorem eq_of_commit_mem_TAGS {ref : Ref} {date : String} {sha s : Sha}
    (h : Tag.commit s ∈ TAGS ref date sha) : s = sha := by
  cases ref <;> simpa [TAGS] using h

theorem eq_stable_of_mem_TAGS {ref : Ref} {date : String} {sha : Sha}
    (h : Tag.stable ∈ TAGS ref date sha) : ref = .stable := by
  cases ref with
  | stable => rfl
  | main => simp [TAGS] at h

variable [DecidableEq Sha]

@[simp] theorem image_tag (w : World Sha) (t u : Tag Sha) (i : Image Sha) :
    (w.tag t i).image u = if t = u then some i else w.image u :=
  Lib.Dict.get?_set w.registry t u i

/-- The tag of a commit denotes an image of it. -/
def WellTagged (w : World Sha) : Prop :=
  ∀ s i, w.image (.commit s) = some i → i.revision = s

theorem promotionStep_registry {w w' : World Sha} {n : Nat} {sha : Sha} {at_ : PromotionStep}
    (h : promotionStep w n sha at_ = some w') : w'.registry = w.registry := by
  cases at_ with
  | push =>
    cases h
    rfl
  | dispatch =>
    obtain ⟨v, hv, rfl⟩ := Option.map_eq_some_iff.1 h
    obtain ⟨head, -, rfl⟩ := Option.map_eq_some_iff.1 hv
    rfl
  | wait workflow polls =>
    cases h
    rw [waitStep_frame]
  | verify =>
    rw [promotionStep] at h
    split at h
    · cases h
      rfl
    · cases h

theorem WellTagged.of_registry {w w' : World Sha} (hw : WellTagged w)
    (h : w'.registry = w.registry) : WellTagged w' := by
  intro s i hi
  rw [World.image, h] at hi
  exact hw s i hi

theorem WellTagged.tag {w : World Sha} (hw : WellTagged w) {t : Tag Sha} {i : Image Sha}
    (ht : ∀ s, t = .commit s → i.revision = s) : WellTagged (w.tag t i) := by
  intro s j hj
  rw [image_tag] at hj
  split at hj
  · rename_i hst
    cases hj
    exact ht s hst
  · exact hw s j hj

theorem wellTagged_rollbackStep {w w' : World Sha} {n : Nat} {target : Sha} {dry_run : Bool}
    {date : String} {at_ : RollbackStep} (hw : WellTagged w)
    (h : rollbackStep w n target dry_run date at_ = some w') : WellTagged w' := by
  cases at_ with
  | verify =>
    obtain ⟨i, -, rfl⟩ := Option.map_eq_some_iff.1 h
    exact hw.of_registry rfl
  | copyStable | copyDated =>
    obtain ⟨i, -, rfl⟩ := Option.map_eq_some_iff.1 h
    exact (hw.tag fun s hs => by cases hs).of_registry rfl
  | moveBranch | summary =>
    cases h
    exact hw.of_registry rfl

/-- Whoever pushes: the tag of a commit goes on denoting an image of that commit. -/
theorem wellTagged_step {w w' : World Sha} {a : Act Sha} (hw : WellTagged w)
    (h : step w a = some w') : WellTagged w' := by
  cases a with
  | mainMoves sha =>
    cases h
    exact hw.of_registry rfl
  | promote sha | rollBack target dry_run =>
    rw [step] at h
    split at h
    · cases h
      exact hw.of_registry rfl
    · cases h
  | jobStep date =>
    obtain ⟨j, -, hj⟩ := Option.bind_eq_some_iff.1 h
    cases j with
    | promotion n sha at_ => exact hw.of_registry (promotionStep_registry hj)
    | rollback n target dry_run at_ => exact wellTagged_rollbackStep hw hj
  | jobStops =>
    obtain ⟨j, -, rfl⟩ := Option.map_eq_some_iff.1 h
    exact hw.of_registry rfl
  | dispatched workflow ref push_image =>
    obtain ⟨head, -, rfl⟩ := Option.map_eq_some_iff.1 h
    exact hw.of_registry rfl
  | run i a =>
    obtain ⟨r, -, hs⟩ := Option.bind_eq_some_iff.1 h
    obtain ⟨s, -, rfl | ⟨t, date, k, -, -, ht, rfl⟩⟩ := runStep_cases hs
    · exact hw.of_registry rfl
    · refine WellTagged.tag (hw.of_registry rfl) fun s hs => ?_
      subst hs
      exact (eq_of_commit_mem_TAGS (List.mem_of_getElem? ht)).symm

/-! ## The window of a rollback -/

/-- A promotion or a rollback moves the branch `stable` by this action. -/
def MovesBranch (w : World Sha) : Act Sha → Bool
  | .jobStep _ =>
    match w.job with
    | some (.promotion _ _ .push) => true
    | some (.rollback _ _ _ .moveBranch) => true
    | _ => false
  | _ => false

/-- No run of another commit among the `old` ones pushes the tag `stable`, and no rollback to
another commit copies onto it. -/
structure Quiet (target : Sha) (old : Nat → Prop) (w : World Sha) (a : Act Sha) : Prop where
  builds : ∀ (i : Nat) r date k, a = .run i (.pushesTag true) → w.runs[i]? = some r → old i →
    r.pushing = some (date, k) → (TAGS r.ref date r.headSha)[k]? = some .stable →
      r.headSha = target
  rollbacks : ∀ n sha dry_run date, a = .jobStep date →
    w.job = some (.rollback n sha dry_run .copyStable) → sha = target

/-- The tag `stable` denotes an image of the target. -/
def StableDenotes (w : World Sha) (target : Sha) : Prop :=
  ∃ i, w.image .stable = some i ∧ i.revision = target

theorem StableDenotes.of_registry {w w' : World Sha} {target : Sha}
    (hw : StableDenotes w target) (h : w'.registry = w.registry) : StableDenotes w' target := by
  obtain ⟨i, hi, hr⟩ := hw
  refine ⟨i, ?_, hr⟩
  rw [World.image, h]
  exact hi

theorem StableDenotes.tag {w : World Sha} {target : Sha} (hw : StableDenotes w target)
    {t : Tag Sha} {i : Image Sha} (ht : t = .stable → i.revision = target) :
    StableDenotes (w.tag t i) target := by
  by_cases hst : t = .stable
  · exact ⟨i, by rw [image_tag, if_pos hst], ht hst⟩
  · obtain ⟨j, hj, hr⟩ := hw
    exact ⟨j, by rw [image_tag, if_neg hst, hj], hr⟩

theorem stableDenotes_copy {w : World Sha} (hw : WellTagged w) {target : Sha} {i : Image Sha}
    (hi : w.image (.commit target) = some i) : StableDenotes (w.tag .stable i) target :=
  ⟨i, by rw [image_tag, if_pos rfl], hw target i hi⟩

/-- What a run does keeps the tag, unless it is an old run of another commit. A run that is
not old is of the target when it is on `stable`. -/
theorem stableDenotes_runStep {w w' : World Sha} {target : Sha} {old : Nat → Prop} {i : Nat}
    {r : Run Sha} {a : RunAct} (hw : StableDenotes w target)
    (hQuiet : Quiet target old w (.run i a)) (hr : w.runs[i]? = some r)
    (hNew : ¬ old i → r.ref = .stable → r.headSha = target)
    (h : runStep w i r a = some w') : StableDenotes w' target := by
  obtain ⟨s, -, rfl | ⟨t, date, k, rfl, hPushing, ht, rfl⟩⟩ := runStep_cases h
  · exact hw.of_registry rfl
  · refine StableDenotes.tag (hw.of_registry rfl) fun hStable => ?_
    subst hStable
    by_cases hOld : old i
    · exact hQuiet.builds i r date k rfl hr hOld hPushing ht
    · exact hNew hOld (eq_stable_of_mem_TAGS (List.mem_of_getElem? ht))

theorem runStep_job {w w' : World Sha} {i : Nat} {r : Run Sha} {a : RunAct}
    (h : runStep w i r a = some w') : w'.job = w.job ∧ w'.stable = w.stable := by
  obtain ⟨s, -, rfl | ⟨t, date, k, -, -, -, rfl⟩⟩ := runStep_cases h
  · exact ⟨rfl, rfl⟩
  · exact ⟨rfl, rfl⟩

/-- No run comes into being by what a run does. -/
theorem runStep_origin {w w' : World Sha} {i k : Nat} {r q : Run Sha} {a : RunAct}
    (hr : w.runs[i]? = some r) (h : runStep w i r a = some w') (hq : w'.runs[k]? = some q) :
    ∃ p, w.runs[k]? = some p ∧ p.Later q := by
  obtain ⟨s, hLater, hw'⟩ := runStep_cases h
  have hRuns : w'.runs = w.runs.set i s := by
    rcases hw' with rfl | ⟨t, date, m, -, -, -, rfl⟩
    · rfl
    · rfl
  rw [hRuns] at hq
  by_cases hik : i = k
  · subst hik
    have hi := (List.getElem?_eq_some_iff.1 hr).1
    rw [List.getElem?_set_self hi, Option.some_inj] at hq
    subst hq
    exact ⟨r, hr, hLater⟩
  · rw [List.getElem?_set_ne hik] at hq
    exact ⟨q, hq, .refl q⟩

/-! ## From the copy to the move -/

/-- The rollback has the group, and the tag is in place once it has been copied. -/
structure Copying (n : Nat) (target : Sha) (w : World Sha) : Prop where
  tagged : WellTagged w
  job : w.job = some (.rollback n target false .copyStable) ∨
    (w.job = some (.rollback n target false .copyDated) ∨
      w.job = some (.rollback n target false .moveBranch)) ∧ StableDenotes w target

/-- The actions between the copy and the move. -/
structure WhileCopying (target : Sha) (w : World Sha) (a : Act Sha) : Prop where
  goesOn : a ≠ .jobStops
  stays : MovesBranch w a = false
  quiet : Quiet target (fun _ => True) w a

theorem Copying.some_job {n : Nat} {target : Sha} {w : World Sha} (hw : Copying n target w) :
    ∃ at_, w.job = some (.rollback n target false at_) := by
  rcases hw.job with h | ⟨h | h, -⟩
  · exact ⟨_, h⟩
  · exact ⟨_, h⟩
  · exact ⟨_, h⟩

/-- Nothing but the job, the tag and the commit tags matters. -/
theorem Copying.of_eq {n : Nat} {target : Sha} {w w' : World Sha} (hw : Copying n target w)
    (hJob : w'.job = w.job) (hTagged : WellTagged w')
    (hDenotes : StableDenotes w target → StableDenotes w' target) : Copying n target w' := by
  refine ⟨hTagged, ?_⟩
  rw [hJob]
  exact hw.job.imp_right fun h => ⟨h.1, hDenotes h.2⟩

theorem copying_rollbackStep {n : Nat} {target : Sha} {w w' : World Sha} {date : String}
    {at_ : RollbackStep} (hw : Copying n target w)
    (hJob : w.job = some (.rollback n target false at_))
    (hStays : MovesBranch w (.jobStep date) = false)
    (h : rollbackStep w n target false date at_ = some w') : Copying n target w' := by
  have hTagged := wellTagged_rollbackStep hw.tagged h
  cases at_ with
  | copyStable =>
    obtain ⟨i, hi, rfl⟩ := Option.map_eq_some_iff.1 h
    have hDenotes := stableDenotes_copy hw.tagged hi
    exact ⟨hTagged, .inr ⟨.inl rfl, hDenotes.of_registry rfl⟩⟩
  | copyDated =>
    obtain ⟨i, hi, rfl⟩ := Option.map_eq_some_iff.1 h
    have hDenotes : StableDenotes w target := by
      rcases hw.job with hj | ⟨-, hDenotes⟩
      · rw [hJob] at hj
        cases hj
      · exact hDenotes
    have hTag : StableDenotes (w.tag (.stableRollback date) i) target :=
      hDenotes.tag fun ht => by cases ht
    exact ⟨hTagged, .inr ⟨.inr rfl, hTag.of_registry rfl⟩⟩
  | moveBranch =>
    rw [MovesBranch, hJob] at hStays
    cases hStays
  | verify | summary =>
    rcases hw.job with hj | ⟨hj | hj, -⟩ <;>
    · rw [hJob] at hj
      cases hj

theorem copying_step {n : Nat} {target : Sha} {w w' : World Sha} {a : Act Sha}
    (hw : Copying n target w) (ha : WhileCopying target w a) (h : step w a = some w') :
    Copying n target w' := by
  have hTagged := wellTagged_step hw.tagged h
  obtain ⟨at_, hJob⟩ := hw.some_job
  cases a with
  | mainMoves sha =>
    cases h
    exact hw.of_eq rfl hTagged fun hd => hd.of_registry rfl
  | promote sha | rollBack sha dry_run =>
    rw [step, hJob, if_neg (Option.some_ne_none _)] at h
    cases h
  | jobStep date =>
    rw [step, hJob, Option.bind_some] at h
    exact copying_rollbackStep hw hJob ha.stays h
  | jobStops => exact absurd rfl ha.goesOn
  | dispatched workflow ref push_image =>
    obtain ⟨head, -, rfl⟩ := Option.map_eq_some_iff.1 h
    exact hw.of_eq rfl hTagged fun hd => hd.of_registry rfl
  | run i a =>
    obtain ⟨r, hr, hs⟩ := Option.bind_eq_some_iff.1 h
    exact hw.of_eq (runStep_job hs).1 hTagged fun hd =>
      stableDenotes_runStep hd ha.quiet hr (fun hOld => absurd trivial hOld) hs

/-! ## After the move -/

/-- The branch and the tag are at the target, and so is every later run of the branch. -/
structure Kept (target : Sha) (runs₁ : Nat) (w : World Sha) : Prop where
  tagged : WellTagged w
  stable : w.stable = some target
  denotes : StableDenotes w target
  runs : ∀ (i : Nat) r, w.runs[i]? = some r → runs₁ ≤ i → r.ref = .stable →
    r.headSha = target

/-- The actions until the branch is moved again. -/
structure WhileKept (target : Sha) (runs₁ : Nat) (w : World Sha) (a : Act Sha) : Prop where
  stays : MovesBranch w a = false
  quiet : Quiet target (· < runs₁) w a

theorem Kept.of_runs {target : Sha} {runs₁ : Nat} {w w' : World Sha}
    (hw : Kept target runs₁ w) (hTagged : WellTagged w') (hStable : w'.stable = w.stable)
    (hRegistry : w'.registry = w.registry) (hRuns : w'.runs = w.runs) :
    Kept target runs₁ w' :=
  ⟨hTagged, hStable.trans hw.stable, hw.denotes.of_registry hRegistry, hRuns ▸ hw.runs⟩

/-- A run that is dispatched on `stable` is of the target. -/
theorem kept_dispatch {target : Sha} {runs₁ : Nat} {w w' : World Sha} {workflow : Workflow}
    {ref : Ref} {push_image : Bool} {promotion : Option Nat} (hw : Kept target runs₁ w)
    (h : w.dispatch workflow ref push_image promotion = some w') : Kept target runs₁ w' := by
  obtain ⟨head, hHead, rfl⟩ := Option.map_eq_some_iff.1 h
  refine ⟨hw.tagged.of_registry rfl, hw.stable, hw.denotes.of_registry rfl,
    fun i r hr hi hRef => ?_⟩
  rcases Nat.lt_or_ge i w.runs.length with hLt | hGe
  · rw [List.getElem?_append_left hLt] at hr
    exact hw.runs i r hr hi hRef
  · have hr' : r = ⟨workflow, ref, head, push_image, promotion, false, .queued, none⟩ := by
      rw [List.getElem?_append_right hGe] at hr
      simpa using List.mem_of_getElem? hr
    subst hr'
    have hRef' : ref = .stable := hRef
    subst hRef'
    exact Option.some_inj.1 (hHead.symm.trans hw.stable)

theorem kept_promotionStep {target : Sha} {runs₁ : Nat} {w w' : World Sha} {n : Nat} {sha : Sha}
    {at_ : PromotionStep} {date : String} (hw : Kept target runs₁ w)
    (hJob : w.job = some (.promotion n sha at_))
    (hStays : MovesBranch w (.jobStep date) = false)
    (h : promotionStep w n sha at_ = some w') : Kept target runs₁ w' := by
  cases at_ with
  | push =>
    rw [MovesBranch, hJob] at hStays
    cases hStays
  | dispatch =>
    obtain ⟨v, hv, rfl⟩ := Option.map_eq_some_iff.1 h
    exact (kept_dispatch hw hv).of_runs ((kept_dispatch hw hv).tagged.of_registry rfl) rfl rfl rfl
  | wait workflow polls =>
    cases h
    rw [waitStep_frame]
    exact hw.of_runs (hw.tagged.of_registry rfl) rfl rfl rfl
  | verify =>
    rw [promotionStep] at h
    split at h
    · cases h
      exact hw.of_runs (hw.tagged.of_registry rfl) rfl rfl rfl
    · cases h

theorem kept_rollbackStep {target sha : Sha} {runs₁ : Nat} {w w' : World Sha} {n : Nat}
    {dry_run : Bool} {at_ : RollbackStep} {date : String} (hw : Kept target runs₁ w)
    (ha : WhileKept target runs₁ w (.jobStep date))
    (hJob : w.job = some (.rollback n sha dry_run at_))
    (h : rollbackStep w n sha dry_run date at_ = some w') : Kept target runs₁ w' := by
  have hTagged := wellTagged_rollbackStep hw.tagged h
  cases at_ with
  | verify =>
    obtain ⟨i, -, rfl⟩ := Option.map_eq_some_iff.1 h
    exact hw.of_runs hTagged rfl rfl rfl
  | copyStable =>
    obtain ⟨i, hi, rfl⟩ := Option.map_eq_some_iff.1 h
    obtain rfl := ha.quiet.rollbacks n sha dry_run date rfl hJob
    exact ⟨hTagged, hw.stable, (stableDenotes_copy hw.tagged hi).of_registry rfl, hw.runs⟩
  | copyDated =>
    obtain ⟨i, hi, rfl⟩ := Option.map_eq_some_iff.1 h
    have hTag : StableDenotes (w.tag (.stableRollback date) i) target :=
      hw.denotes.tag fun ht => by cases ht
    exact ⟨hTagged, hw.stable, hTag.of_registry rfl, hw.runs⟩
  | moveBranch =>
    have hStays := ha.stays
    rw [MovesBranch, hJob] at hStays
    cases hStays
  | summary =>
    cases h
    exact hw.of_runs hTagged rfl rfl rfl

theorem kept_step {target : Sha} {runs₁ : Nat} {w w' : World Sha} {a : Act Sha}
    (hw : Kept target runs₁ w) (ha : WhileKept target runs₁ w a) (h : step w a = some w') :
    Kept target runs₁ w' := by
  have hTagged := wellTagged_step hw.tagged h
  cases a with
  | mainMoves sha =>
    cases h
    exact hw.of_runs hTagged rfl rfl rfl
  | promote sha | rollBack sha dry_run =>
    rw [step] at h
    split at h
    · cases h
      exact hw.of_runs hTagged rfl rfl rfl
    · cases h
  | jobStep date =>
    obtain ⟨j, hJob, hj⟩ := Option.bind_eq_some_iff.1 h
    cases j with
    | promotion n sha at_ => exact kept_promotionStep hw hJob ha.stays hj
    | rollback n sha dry_run at_ => exact kept_rollbackStep hw ha hJob hj
  | jobStops =>
    obtain ⟨j, -, rfl⟩ := Option.map_eq_some_iff.1 h
    exact hw.of_runs hTagged rfl rfl rfl
  | dispatched workflow ref push_image => exact kept_dispatch hw h
  | run i a =>
    obtain ⟨r, hr, hs⟩ := Option.bind_eq_some_iff.1 h
    refine ⟨hTagged, (runStep_job hs).2.trans hw.stable, ?_, fun k q hq hk hRef => ?_⟩
    · exact stableDenotes_runStep hw.denotes ha.quiet hr
        (fun hOld => hw.runs i r hr (Nat.le_of_not_lt hOld)) hs
    · obtain ⟨p, hp, hLater⟩ := runStep_origin hr hs hq
      rw [hLater.headSha]
      exact hw.runs k p hp hk (hLater.ref.symm.trans hRef)

/-- **A rollback is kept, unless an earlier build pushes over it.** Let a rollback to the
target copy the tag in `w`, move the branch in `w₁`, and let no other job move the branch until
`w'`. If the actions since the copy meet `Quiet`, the branch points at the target in `w'` and
the tag `stable` denotes an image of it. -/
theorem rollback_kept {w₀ w w₁ w₂ w' : World Sha} {n : Nat} {target : Sha} {date : String}
    (hStart : WellTagged w₀) (h : Reaches step (fun _ _ => True) w₀ w)
    (hCopies : w.job = some (.rollback n target false .copyStable))
    (hCopying : Reaches step (WhileCopying target) w w₁)
    (hMoves : w₁.job = some (.rollback n target false .moveBranch))
    (hMove : step w₁ (.jobStep date) = some w₂)
    (hAfter : Reaches step (WhileKept target w₁.runs.length) w₂ w') :
    w'.stable = some target ∧ StableDenotes w' target := by
  have hTagged : WellTagged w := h.invariant hStart fun _ _ _ hw _ hs => wellTagged_step hw hs
  have hCopied : Copying n target w₁ :=
    hCopying.invariant (I := Copying n target) ⟨hTagged, .inl hCopies⟩
      fun _ _ _ hw ha hs => copying_step hw ha hs
  have hDenotes : StableDenotes w₁ target := by
    rcases hCopied.job with hj | ⟨-, hDenotes⟩
    · rw [hMoves] at hj
      cases hj
    · exact hDenotes
  rw [step, hMoves, Option.bind_some] at hMove
  cases hMove
  have hMoved : Kept target w₁.runs.length
      ({ w₁ with stable := some target }.goto (.rollback n target false .summary)) := by
    refine ⟨hCopied.tagged.of_registry rfl, rfl, hDenotes.of_registry rfl, fun i r hr hi => ?_⟩
    exact absurd (List.getElem?_eq_some_iff.1 hr).1 (Nat.not_lt.2 hi)
  have hKept : Kept target w₁.runs.length w' :=
    hAfter.invariant hMoved fun _ _ _ hw ha hs => kept_step hw ha hs
  exact ⟨hKept.stable, hKept.denotes⟩

/-! ## Two histories -/

/-- Commit 1 is released; `main` is at commit 2. -/
def released : World Nat where
  main := 2
  stable := some 1
  registry := [(.stable, ⟨1, 0⟩), (.commit 1, ⟨1, 0⟩)]
  runs := []
  job := none
  jobs := 0

theorem wellTagged_released : WellTagged released := by
  intro s i hi
  by_cases hs : s = 1
  · subst hs
    cases hi
    rfl
  · have hNone : released.image (.commit s) = none := by
      simp [World.image, released, Lib.Dict.get?, Ne.symm hs]
    rw [hNone] at hi
    cases hi

/-- An action that nobody but the target's own builds and rollbacks takes part in. -/
def targetOnly (target : Nat) (w : World Nat) : Act Nat → Bool
  | .run i _ => w.runs[i]?.all fun r => r.headSha = target
  | .jobStep _ =>
    match w.job with
    | some (.rollback _ sha _ .copyStable) => sha = target
    | _ => true
  | .jobStops => false
  | _ => true

theorem quiet_of_targetOnly {target : Nat} {w : World Nat} {a : Act Nat}
    (h : targetOnly target w a) (old : Nat → Prop) : Quiet target old w a where
  builds i r date k ha hr _ _ _ := by
    subst ha
    rw [targetOnly, hr] at h
    exact of_decide_eq_true h
  rollbacks n sha dry_run date ha hJob := by
    subst ha
    rw [targetOnly, hJob] at h
    exact of_decide_eq_true h

/-- A promotion of commit 2 fails before its dispatch. After the rollback to commit 1 a build
of the branch is dispatched by hand, and pushes the tag. -/
theorem rollback_kept_rebuilt :
    (⟨2, some 1, [(.stable, ⟨1, 0⟩), (.commit 1, ⟨1, 0⟩), (.stableRollback "d", ⟨1, 0⟩)],
      [⟨.multiRunner, .stable, 1, true, none, false, .inProgress, some ("d", 1)⟩], none, 2⟩ :
        World Nat).stable = some 1 ∧
      StableDenotes (⟨2, some 1, [(.stable, ⟨1, 0⟩), (.commit 1, ⟨1, 0⟩),
        (.stableRollback "d", ⟨1, 0⟩)],
        [⟨.multiRunner, .stable, 1, true, none, false, .inProgress, some ("d", 1)⟩], none, 2⟩ :
          World Nat) 1 := by
  have hRun : Reaches step (fun _ _ => True) released
      ⟨2, some 2, released.registry, [], some (.rollback 1 1 false .copyStable), 2⟩ :=
    reaches_of_runWithin [.promote 2, .jobStep "", .jobStops, .rollBack 1 false, .jobStep ""]
      (by decide)
  have hCopying : Reaches step (WhileCopying 1)
      (⟨2, some 2, released.registry, [], some (.rollback 1 1 false .copyStable), 2⟩ : World Nat)
      ⟨2, some 2, released.registry ++ [(.stableRollback "d", ⟨1, 0⟩)], [],
        some (.rollback 1 1 false .moveBranch), 2⟩ := by
    refine (reaches_of_runWithin (P := fun w a => targetOnly 1 w a ∧ MovesBranch w a = false)
      [.jobStep "d", .jobStep "d"] (by decide)).mono ?_
    rintro w a ⟨ha, hStays⟩
    refine ⟨?_, hStays, quiet_of_targetOnly ha _⟩
    rintro rfl
    cases ha
  refine rollback_kept wellTagged_released hRun rfl hCopying rfl
    (show step _ (.jobStep "d") = some _ from rfl) ?_
  refine (reaches_of_runWithin (P := fun w a => targetOnly 1 w a ∧ MovesBranch w a = false)
    [.jobStep "d", .dispatched .multiRunner .stable true, .run 0 .starts,
      .run 0 (.beginsPush "d"), .run 0 (.pushesTag true)] (by decide)).mono ?_
  rintro w a ⟨ha, hStays⟩
  exact ⟨hStays, quiet_of_targetOnly ha _⟩

/-- **A build undoes a rollback.** The promotion of commit 2 times out while its build runs.
The rollback to commit 1 completes, and then the build pushes its tags: the branch points at
commit 1, the tag at an image of commit 2. -/
theorem rollback_undone :
    ∃ w₀ wᵣ w₁ w : World Nat, WellTagged w₀ ∧ Reaches step (fun _ _ => True) w₀ wᵣ ∧
      wᵣ.job = some (.rollback 1 1 false .summary) ∧ step wᵣ (.jobStep "") = some w₁ ∧
      Reaches step (fun w a => MovesBranch w a = false) w₁ w ∧
      w.stable = some 1 ∧ ¬ StableDenotes w 1 := by
  refine ⟨released, _, _, ⟨2, some 1, [(.stable, ⟨2, 0⟩), (.commit 1, ⟨1, 0⟩),
      (.stableRollback "d", ⟨1, 0⟩)],
      [⟨.multiRunner, .stable, 2, true, some 0, true, .inProgress, some ("d", 1)⟩], none, 2⟩,
    wellTagged_released,
    reaches_of_runWithin (t := ⟨2, some 1, released.registry ++ [(.stableRollback "d", ⟨1, 0⟩)],
      [⟨.multiRunner, .stable, 2, true, some 0, true, .inProgress, none⟩],
      some (.rollback 1 1 false .summary), 2⟩)
      [.promote 2, .jobStep "", .jobStep "", .run 0 .appears, .run 0 .starts, .jobStops,
        .rollBack 1 false, .jobStep "", .jobStep "d", .jobStep "d", .jobStep "d"] (by decide),
    rfl, rfl, ?_, rfl, ?_⟩
  · exact reaches_of_runWithin
      [.run 0 (.beginsPush "d"), .run 0 (.pushesTag true)] (by decide)
  · rintro ⟨i, hi, hr⟩
    cases hi
    cases hr

end XfceLinux.Release
