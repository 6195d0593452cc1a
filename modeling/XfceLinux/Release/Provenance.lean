import XfceLinux.Release.Rollback

/-!
# Where the images come from

The tags are written by builds of both branches and by rollbacks, in any order. Starting from
an empty registry, an image is always one that a step of a build has pushed under the tag, or
one that a step of a rollback has copied there from the tag of its commit, and the commit was
the head of the build's branch (`provenance`).
-/

namespace XfceLinux.Release

open Lib.Transition

variable {Sha : Type}

/-! ## Runs ahead -/

/-- `s` is the run `r` at a later moment, and it has not forgotten what it has pushed. -/
structure Run.Ahead (r s : Run Sha) : Prop extends r.Later s where
  push_image : s.push_image = r.push_image
  pushing : ∀ date k, r.pushing = some (date, k) → ∃ k', k ≤ k' ∧ s.pushing = some (date, k')

/-- Only a build that is to push does so. -/
def Run.Pushes (r : Run Sha) : Prop :=
  r.pushing ≠ none → r.workflow = .multiRunner ∧ r.push_image = true

/-- Every run of `w` has a counterpart ahead of it in `w'`. -/
def RunsAhead (w w' : World Sha) : Prop :=
  ∀ (k : Nat) (r : Run Sha), w.runs[k]? = some r → ∃ s, w'.runs[k]? = some s ∧ r.Ahead s

theorem Run.Ahead.refl (r : Run Sha) : r.Ahead r :=
  ⟨.refl r, rfl, fun _ k hk => ⟨k, le_rfl, hk⟩⟩

theorem Run.Ahead.trans {r s u : Run Sha} (h : r.Ahead s) (h' : s.Ahead u) : r.Ahead u := by
  refine ⟨⟨h'.workflow.trans h.workflow, h'.ref.trans h.ref, h'.headSha.trans h.headSha,
    h'.promotion.trans h.promotion, fun c hc => h'.completed c (h.completed c hc)⟩,
    h'.push_image.trans h.push_image, fun date k hk => ?_⟩
  obtain ⟨k', hle, hk'⟩ := h.pushing date k hk
  obtain ⟨k'', hle', hk''⟩ := h'.pushing date k' hk'
  exact ⟨k'', hle.trans hle', hk''⟩

theorem RunsAhead.refl (w : World Sha) : RunsAhead w w := fun _ r hr => ⟨r, hr, .refl r⟩

theorem RunsAhead.trans {w w' w'' : World Sha} (h : RunsAhead w w') (h' : RunsAhead w' w'') :
    RunsAhead w w'' := by
  intro k r hr
  obtain ⟨s, hs, hrs⟩ := h k r hr
  obtain ⟨u, hu, hsu⟩ := h' k s hs
  exact ⟨u, hu, hrs.trans hsu⟩

theorem runsAhead_set {w w' : World Sha} {i : Nat} {r s : Run Sha} (hr : w.runs[i]? = some r)
    (hs : r.Ahead s) (hruns : w'.runs = w.runs.set i s) : RunsAhead w w' := by
  intro k q hq
  rw [hruns]
  by_cases hik : i = k
  · subst hik
    rw [hr, Option.some_inj] at hq
    subst hq
    exact ⟨s, List.getElem?_set_self (List.getElem?_eq_some_iff.1 hr).1, hs⟩
  · exact ⟨q, by rw [List.getElem?_set_ne hik, hq], .refl q⟩

variable [DecidableEq Sha]

/-! ## What a step does -/

/-- What a run does to the registry. -/
inductive RunEffect (w w' : World Sha) (i : Nat) (r : Run Sha) (a : RunAct) : Prop
  | ran (hregistry : w'.registry = w.registry)
  | pushed (t : Tag Sha) (date : String) (k : Nat) (ha : a = .pushesTag true)
      (hk : r.pushing = some (date, k)) (ht : (TAGS r.ref date r.headSha)[k]? = some t)
      (hregistry : w'.registry = Lib.Dict.set w.registry t ⟨r.headSha, i⟩)

theorem runStep_effect {w w' : World Sha} {i : Nat} {r : Run Sha} {a : RunAct}
    (h : runStep w i r a = some w') :
    ∃ s, r.Ahead s ∧ (r.Pushes → s.Pushes) ∧ w'.runs = w.runs.set i s ∧
      RunEffect w w' i r a := by
  have hkeep : ∀ date k, r.pushing = some (date, k) →
      ∃ k', k ≤ k' ∧ r.pushing = some (date, k') := fun _ k hk => ⟨k, le_rfl, hk⟩
  cases a with
  | appears =>
    cases h
    exact ⟨{ r with visible := true }, ⟨⟨rfl, rfl, rfl, rfl, fun _ hc => hc⟩, rfl, hkeep⟩, id, rfl,
      .ran rfl⟩
  | starts =>
    rw [runStep] at h
    split at h
    · rename_i hqueued
      cases h
      refine ⟨{ r with status := .inProgress },
        ⟨⟨rfl, rfl, rfl, rfl, fun c hc => ?_⟩, rfl, hkeep⟩, id, rfl, .ran rfl⟩
      rw [hqueued.1] at hc
      cases hc
    · cases h
  | beginsPush date =>
    rw [runStep] at h
    split at h
    · rename_i hbegins
      cases h
      refine ⟨{ r with pushing := some (date, 0) },
        ⟨⟨rfl, rfl, rfl, rfl, fun _ hc => hc⟩, rfl, fun date k hk => ?_⟩,
        fun _ _ => ⟨hbegins.2.1, hbegins.2.2.1⟩, rfl, .ran rfl⟩
      rw [hbegins.2.2.2] at hk
      cases hk
    · cases h
  | pushesTag ok =>
    rw [runStep] at h
    split at h
    · obtain ⟨⟨date, k⟩, hpushing, h⟩ := Option.bind_eq_some_iff.1 h
      obtain ⟨t, ht, h⟩ := Option.map_eq_some_iff.1 h
      have hahead : r.Ahead { r with pushing := some (date, k + 1) } := by
        refine ⟨⟨rfl, rfl, rfl, rfl, fun _ hc => hc⟩, rfl, fun date' k' hk => ?_⟩
        rw [hpushing] at hk
        cases hk
        exact ⟨k + 1, Nat.le_succ k, rfl⟩
      have hpushes : r.Pushes → ({ r with pushing := some (date, k + 1) } : Run Sha).Pushes :=
        fun hp _ => hp (by simp [hpushing])
      cases ok with
      | true =>
        cases h
        exact ⟨_, hahead, hpushes, rfl, .pushed t date k rfl hpushing ht rfl⟩
      | false =>
        cases h
        exact ⟨_, hahead, hpushes, rfl, .ran rfl⟩
    · cases h
  | completes conclusion =>
    rw [runStep] at h
    split at h
    · rename_i hstatus
      cases h
      refine ⟨{ r with status := .completed conclusion },
        ⟨⟨rfl, rfl, rfl, rfl, fun c hc => ?_⟩, rfl, hkeep⟩, id, rfl, .ran rfl⟩
      rcases hstatus with ⟨hstatus, -⟩ | ⟨hstatus, -⟩ <;>
      · rw [hstatus] at hc
        cases hc
    · cases h

/-- What a step does to the runs and to the registry. -/
inductive Effect (w : World Sha) (a : Act Sha) (w' : World Sha) : Prop
  | none (hruns : w'.runs = w.runs) (hregistry : w'.registry = w.registry)
  | dispatched (r : Run Sha) (hpushing : r.pushing = Option.none) (hqueued : r.status = .queued)
      (hhead : w.head r.ref = some r.headSha) (hruns : w'.runs = w.runs ++ [r])
      (hregistry : w'.registry = w.registry)
  | run (i : Nat) (r : Run Sha) (b : RunAct) (ha : a = .run i b) (hr : w.runs[i]? = some r)
      (h : runStep w i r b = some w')
  | copied (date : String) (n : Nat) (target : Sha) (dry_run : Bool) (at_ : RollbackStep)
      (t : Tag Sha) (i : Image Sha) (ha : a = .jobStep date)
      (hjob : w.job = some (.rollback n target dry_run at_))
      (hat : at_ = .copyStable ∧ t = .stable ∨ at_ = .copyDated ∧ t = .stableRollback date)
      (hi : w.image (.commit target) = some i) (hruns : w'.runs = w.runs)
      (hregistry : w'.registry = Lib.Dict.set w.registry t i)

theorem dispatch_effect {w w' v : World Sha} {workflow : Workflow} {ref : Ref} {push_image : Bool}
    {promotion : Option Nat} {a : Act Sha}
    (h : w.dispatch workflow ref push_image promotion = some v) (hruns : w'.runs = v.runs)
    (hregistry : w'.registry = v.registry) : Effect w a w' := by
  obtain ⟨sha, hhead, rfl⟩ := Option.map_eq_some_iff.1 h
  exact .dispatched ⟨workflow, ref, sha, push_image, promotion, false, .queued, Option.none⟩ rfl
    rfl hhead hruns hregistry

theorem step_effect {w w' : World Sha} {a : Act Sha} (h : step w a = some w') :
    Effect w a w' := by
  cases a with
  | mainMoves sha =>
    cases h
    exact .none rfl rfl
  | promote sha | rollBack target dry_run =>
    rw [step] at h
    split at h
    · cases h
      exact .none rfl rfl
    · cases h
  | jobStep date =>
    obtain ⟨j, hjob, hj⟩ := Option.bind_eq_some_iff.1 h
    cases j with
    | promotion n sha at_ =>
      cases at_ with
      | push =>
        cases hj
        exact .none rfl rfl
      | dispatch =>
        obtain ⟨v, hv, rfl⟩ := Option.map_eq_some_iff.1 hj
        exact dispatch_effect hv rfl rfl
      | wait workflow polls =>
        cases hj
        rw [waitStep_frame]
        exact .none rfl rfl
      | verify =>
        rw [jobStep, promotionStep] at hj
        split at hj
        · cases hj
          exact .none rfl rfl
        · cases hj
    | rollback n target dry_run at_ =>
      cases at_ with
      | verify =>
        obtain ⟨i, -, rfl⟩ := Option.map_eq_some_iff.1 hj
        exact .none rfl rfl
      | copyStable =>
        obtain ⟨i, hi, rfl⟩ := Option.map_eq_some_iff.1 hj
        exact .copied date n target dry_run _ .stable i rfl hjob (.inl ⟨rfl, rfl⟩) hi rfl rfl
      | copyDated =>
        obtain ⟨i, hi, rfl⟩ := Option.map_eq_some_iff.1 hj
        exact .copied date n target dry_run _ (.stableRollback date) i rfl hjob (.inr ⟨rfl, rfl⟩) hi
          rfl rfl
      | moveBranch | summary =>
        cases hj
        exact .none rfl rfl
  | jobStops =>
    obtain ⟨j, -, rfl⟩ := Option.map_eq_some_iff.1 h
    exact .none rfl rfl
  | dispatched workflow ref push_image => exact dispatch_effect h rfl rfl
  | run i a =>
    obtain ⟨r, hr, hs⟩ := Option.bind_eq_some_iff.1 h
    exact .run i r a rfl hr hs

/-! ## Earlier moments -/

/-- Some moment between `w₀` and `w` meets `P`. -/
def Once (w₀ w : World Sha) (P : World Sha → Prop) : Prop :=
  ∃ v, Reaches step (fun _ _ => True) w₀ v ∧ Reaches step (fun _ _ => True) v w ∧ P v

theorem Once.later {w₀ w w' : World Sha} {P : World Sha → Prop} (h : Once w₀ w P) {a : Act Sha}
    (ha : step w a = some w') : Once w₀ w' P := by
  obtain ⟨v, hv, hw, hP⟩ := h
  exact ⟨v, hv, hw.tail trivial ha, hP⟩

/-- Some step between `w₀` and `w`, from a state and with an action that meet `P`. -/
def Taken (w₀ w : World Sha) (P : World Sha → Act Sha → Prop) : Prop :=
  ∃ v a v', Reaches step (fun _ _ => True) w₀ v ∧ step v a = some v' ∧
    Reaches step (fun _ _ => True) v' w ∧ P v a

theorem Taken.later {w₀ w w' : World Sha} {P : World Sha → Act Sha → Prop} (h : Taken w₀ w P)
    {a : Act Sha} (ha : step w a = some w') : Taken w₀ w' P := by
  obtain ⟨v, b, v', hv, hb, hw, hP⟩ := h
  exact ⟨v, b, v', hv, hb, hw.tail trivial ha, hP⟩

/-- The run of the image, a build of its commit, has pushed the tag. -/
def Pushed (w₀ w : World Sha) (t : Tag Sha) (i : Image Sha) : Prop :=
  Taken w₀ w fun v a => a = .run i.run (.pushesTag true) ∧
    ∃ r date k, v.runs[i.run]? = some r ∧ r.headSha = i.revision ∧
      r.pushing = some (date, k) ∧ (TAGS r.ref date r.headSha)[k]? = some t

/-- A rollback that is no dry run has copied the image to the tag, from the tag of its commit
under which it had been pushed. -/
def Copied (w₀ w : World Sha) (t : Tag Sha) (i : Image Sha) : Prop :=
  Taken w₀ w fun v a => ∃ date n at_, a = .jobStep date ∧
    v.job = some (.rollback n i.revision false at_) ∧ v.image (.commit i.revision) = some i ∧
    Pushed w₀ v (.commit i.revision) i ∧
    (at_ = .copyStable ∧ t = .stable ∨ at_ = .copyDated ∧ t = .stableRollback date)

/-- The tag of a commit is only pushed by a build of the commit. -/
theorem Pushed.revision {w₀ w : World Sha} {sha : Sha} {i : Image Sha}
    (h : Pushed w₀ w (.commit sha) i) : i.revision = sha := by
  obtain ⟨_, _, _, -, -, -, -, r, date, k, -, hsha, -, ht⟩ := h
  rw [eq_of_commit_mem_TAGS (List.mem_of_getElem? ht), hsha]

/-- The image has been pushed under the tag, or copied there by a rollback. -/
def Came (w₀ w : World Sha) (t : Tag Sha) (i : Image Sha) : Prop :=
  Pushed w₀ w t i ∨ Copied w₀ w t i

theorem Came.later {w₀ w w' : World Sha} {t : Tag Sha} {i : Image Sha} (h : Came w₀ w t i)
    {a : Act Sha} (ha : step w a = some w') : Came w₀ w' t i :=
  h.imp (·.later ha) (·.later ha)

theorem Effect.runsAhead {w w' : World Sha} {a : Act Sha} (h : Effect w a w') :
    RunsAhead w w' := by
  cases h with
  | none hruns | copied _ _ _ _ _ _ _ _ _ _ _ hruns =>
    exact fun _ r hr => ⟨r, hruns ▸ hr, .refl r⟩
  | dispatched r _ _ _ hruns =>
    intro k q hq
    have hk := (List.getElem?_eq_some_iff.1 hq).1
    exact ⟨q, by rw [hruns, List.getElem?_append_left hk, hq], .refl q⟩
  | run i r b _ hr h =>
    obtain ⟨s, hs, -, hruns, -⟩ := runStep_effect h
    exact runsAhead_set hr hs hruns

theorem runsAhead_of_reaches {w w' : World Sha} (h : Reaches step (fun _ _ => True) w w') :
    RunsAhead w w' :=
  h.invariant (.refl w) fun _ _ _ hu _ ha => hu.trans (step_effect ha).runsAhead

/-! ## The invariant -/

structure Traced (w₀ w : World Sha) : Prop where
  reached : Reaches step (fun _ _ => True) w₀ w
  runs : ∀ (k : Nat) (r : Run Sha), w.runs[k]? = some r →
    r.Pushes ∧ Once w₀ w fun v => v.head r.ref = some r.headSha
  dry : ∀ n sha at_, w.job = some (.rollback n sha true at_) → at_ = .verify ∨ at_ = .summary
  images : ∀ t i, w.image t = some i → Came w₀ w t i

theorem promotionStep_job {w w' : World Sha} {n n' : Nat} {sha sha' : Sha} {at_ : PromotionStep}
    {dry_run : Bool} {at' : RollbackStep} (h : promotionStep w n sha at_ = some w') :
    w'.job ≠ some (.rollback n' sha' dry_run at') := by
  intro hjob
  cases at_ with
  | push =>
    cases h
    cases hjob
  | dispatch =>
    obtain ⟨v, -, rfl⟩ := Option.map_eq_some_iff.1 h
    cases hjob
  | wait workflow polls =>
    cases h
    unfold waitStep at hjob
    split at hjob
    · cases hjob
    · cases hjob
    · split at hjob <;> cases hjob
  | verify =>
    rw [promotionStep] at h
    split at h <;> cases h
    cases hjob

/-- A dry run comes no further than its check. -/
theorem dry_step {w w' : World Sha} {a : Act Sha}
    (h : ∀ n sha at_, w.job = some (.rollback n sha true at_) → at_ = .verify ∨ at_ = .summary)
    (ha : step w a = some w') :
    ∀ n sha at_, w'.job = some (.rollback n sha true at_) → at_ = .verify ∨ at_ = .summary := by
  intro n sha at_ hjob
  have hkept : w'.job = w.job → at_ = .verify ∨ at_ = .summary :=
    fun hsame => h n sha at_ (hsame ▸ hjob)
  cases a with
  | mainMoves sha =>
    cases ha
    exact hkept rfl
  | promote sha =>
    rw [step] at ha
    split at ha <;> cases ha
    cases hjob
  | rollBack target dry_run =>
    rw [step] at ha
    split at ha <;> cases ha
    cases hjob
    exact .inl rfl
  | jobStep date =>
    obtain ⟨j, hj, hs⟩ := Option.bind_eq_some_iff.1 ha
    cases j with
    | promotion n' sha' at' => exact absurd hjob (promotionStep_job hs)
    | rollback n' target dry_run at' =>
      cases at' with
      | verify =>
        obtain ⟨i, -, rfl⟩ := Option.map_eq_some_iff.1 hs
        cases dry_run with
        | true =>
          cases hjob
          exact .inr rfl
        | false => cases hjob
      | copyStable | copyDated =>
        obtain ⟨i, -, rfl⟩ := Option.map_eq_some_iff.1 hs
        cases hjob
        simpa using h _ _ _ hj
      | moveBranch =>
        cases hs
        cases hjob
        exact .inr rfl
      | summary =>
        cases hs
        cases hjob
  | jobStops =>
    obtain ⟨j, -, rfl⟩ := Option.map_eq_some_iff.1 ha
    cases hjob
  | dispatched workflow ref push_image =>
    obtain ⟨head, -, rfl⟩ := Option.map_eq_some_iff.1 ha
    exact hkept rfl
  | run i a =>
    obtain ⟨r, -, hs⟩ := Option.bind_eq_some_iff.1 ha
    exact hkept (runStep_job hs).1

theorem traced_step {w₀ w w' : World Sha} {a : Act Sha} (h : Traced w₀ w)
    (ha : step w a = some w') : Traced w₀ w' := by
  have hold : ∀ t i, w.image t = some i → Came w₀ w' t i :=
    fun t i hi => (h.images t i hi).later ha
  have hruns : ∀ (k : Nat) (r s : Run Sha), w.runs[k]? = some r → r.Ahead s →
      (r.Pushes → s.Pushes) → s.Pushes ∧ Once w₀ w' fun v => v.head s.ref = some s.headSha := by
    intro k r s hr hs hpushes
    obtain ⟨hp, honce⟩ := h.runs k r hr
    refine ⟨hpushes hp, ?_⟩
    rw [hs.ref, hs.headSha]
    exact honce.later ha
  refine ⟨h.reached.tail trivial ha, ?_, dry_step h.dry ha, ?_⟩
  · intro k q hq
    cases step_effect ha with
    | none heq | copied _ _ _ _ _ _ _ _ _ _ _ heq =>
      rw [heq] at hq
      exact hruns k q q hq (.refl q) id
    | dispatched r hpushing _ hhead heq =>
      rw [heq] at hq
      rcases List.mem_append.mp (List.mem_of_getElem? hq) with hmem | hmem
      · obtain ⟨j, hj⟩ := List.mem_iff_getElem?.mp hmem
        exact hruns j q q hj (.refl q) id
      · rw [List.mem_singleton.mp hmem]
        exact ⟨fun hne => absurd hpushing hne, w, h.reached,
          (Reaches.refl w).tail trivial ha, hhead⟩
    | run i r b _ hr hb =>
      obtain ⟨s, hs, hpushes, heq, -⟩ := runStep_effect hb
      rw [heq] at hq
      by_cases hik : i = k
      · subst hik
        rw [List.getElem?_set_self (List.getElem?_eq_some_iff.1 hr).1, Option.some_inj] at hq
        subst hq
        exact hruns i r s hr hs hpushes
      · rw [List.getElem?_set_ne hik] at hq
        exact hruns k q q hq (.refl q) id
  · intro t i hi
    cases step_effect ha with
    | none _ heq | dispatched _ _ _ _ _ heq =>
      rw [World.image, heq] at hi
      exact hold t i hi
    | run j r b hact hr hb =>
      obtain ⟨s, -, -, -, hregistry | ⟨t', date, k, hb, hk, ht, hregistry⟩⟩ :=
        runStep_effect hb
      · rw [World.image, hregistry] at hi
        exact hold t i hi
      rw [World.image, hregistry, Lib.Dict.get?_set] at hi
      split at hi
      · rename_i htt
        cases hi
        subst htt
        exact .inl ⟨w, a, w', h.reached, ha, .refl w', by rw [hact, hb], r, date, k, hr, rfl, hk,
          ht⟩
      · exact hold t i hi
    | copied date n target dry_run at_ t' j hact hjob hat hj heq hregistry =>
      rw [World.image, hregistry, Lib.Dict.get?_set] at hi
      split at hi
      · rename_i htt
        obtain rfl := Option.some_inj.mp hi
        subst htt
        have hpushed : Pushed w₀ w (.commit target) j := by
          rcases h.images _ _ hj with hpushed | ⟨_, _, _, -, -, -, _, _, _, -, -, -, -, hat⟩
          · exact hpushed
          · rcases hat with ⟨-, htag⟩ | ⟨-, htag⟩ <;> cases htag
        obtain rfl := hpushed.revision
        cases dry_run with
        | true => rcases hat with ⟨rfl, -⟩ | ⟨rfl, -⟩ <;> simpa using h.dry _ _ _ hjob
        | false =>
          exact .inr ⟨w, a, w', h.reached, ha, .refl w', date, n, at_, hact, hjob, hj, hpushed, hat⟩
      · exact hold t i hi

/-- A run that has pushed an image is still there. -/
theorem Pushed.run {w₀ w : World Sha} {t : Tag Sha} {i : Image Sha} (h : Pushed w₀ w t i) :
    ∃ r : Run Sha, w.runs[i.run]? = some r ∧ r.headSha = i.revision ∧ r.pushing ≠ none := by
  obtain ⟨v, a, v', -, ha, hw, -, r, date, k, hr, hsha, hk, -⟩ := h
  obtain ⟨s, hs, hahead⟩ := ((step_effect ha).runsAhead.trans (runsAhead_of_reaches hw)) _ r hr
  obtain ⟨k', -, hk'⟩ := hahead.pushing date k hk
  exact ⟨s, hs, hahead.headSha.trans hsha, by simp [hk']⟩

theorem Came.pushed {w₀ w : World Sha} {t : Tag Sha} {i : Image Sha} (h : Came w₀ w t i) :
    ∃ t, Pushed w₀ w t i := by
  rcases h with hpushed | ⟨v, a, v', -, ha, hw, _, _, _, -, -, -, hpushed, -⟩
  · exact ⟨t, hpushed⟩
  · obtain ⟨u, b, u', hu, hb, hv, hP⟩ := hpushed
    exact ⟨_, u, b, u', hu, hb, (hv.tail trivial ha).trans hw, hP⟩

/-- **Provenance.** Whatever the builds, promotions and rollbacks have done since the registry was
empty: an image under a tag was built by a run of the build workflow that was to push, at a
commit that was then the head of its branch. A step of the run has pushed this tag, or a step of
a rollback that was no dry run has copied the image to it from the tag of its commit, which the
run had pushed. -/
theorem provenance {w₀ w : World Sha} (hruns : w₀.runs = []) (hregistry : w₀.registry = [])
    (hjob : w₀.job = none) (h : Reaches step (fun _ _ => True) w₀ w) {t : Tag Sha}
    {i : Image Sha} (hi : w.image t = some i) :
    ∃ r : Run Sha, w.runs[i.run]? = some r ∧ r.headSha = i.revision ∧ r.workflow = .multiRunner ∧
      r.push_image = true ∧ (Once w₀ w fun v => v.head r.ref = some i.revision) ∧
      Came w₀ w t i := by
  have hstart : Traced w₀ w₀ := by
    refine ⟨.refl w₀, fun k r hr => ?_, fun n sha at_ hj => ?_, fun t i hi => ?_⟩
    · rw [hruns] at hr
      cases hr
    · rw [hjob] at hj
      cases hj
    · rw [World.image, hregistry] at hi
      cases hi
  have htraced : Traced w₀ w := h.invariant hstart fun _ _ _ hu _ ha => traced_step hu ha
  have hcame := htraced.images t i hi
  obtain ⟨_, hpushed⟩ := hcame.pushed
  obtain ⟨r, hr, hsha, hpushing⟩ := hpushed.run
  obtain ⟨hpushes, honce⟩ := htraced.runs _ r hr
  obtain ⟨hworkflow, hpush_image⟩ := hpushes hpushing
  rw [hsha] at honce
  exact ⟨r, hr, hsha, hworkflow, hpush_image, honce, hcame⟩

/-- Nothing has been built. -/
def unreleased : World Nat where
  main := 1
  stable := none
  registry := []
  runs := []
  job := none
  jobs := 0

/-- A build of `main` has pushed its tags, and a rollback has copied its image. -/
def copiedOnce : World Nat where
  main := 1
  stable := none
  registry := [(.latest, ⟨1, 0⟩), (.nightly, ⟨1, 0⟩), (.nightlyOn "d", ⟨1, 0⟩), (.commit 1, ⟨1, 0⟩),
    (.stable, ⟨1, 0⟩)]
  runs := [⟨.multiRunner, .main, 1, true, none, false, .inProgress, some ("d", 4)⟩]
  job := some (.rollback 0 1 false .copyDated)
  jobs := 1

theorem provenance_copiedOnce : Came unreleased copiedOnce .stable ⟨1, 0⟩ ∧
    Once unreleased copiedOnce fun v => v.head .main = some 1 := by
  have hrun : Reaches step (fun _ _ => True) unreleased copiedOnce :=
    reaches_of_runWithin [.dispatched .multiRunner .main true, .run 0 .starts,
      .run 0 (.beginsPush "d"), .run 0 (.pushesTag true), .run 0 (.pushesTag true),
      .run 0 (.pushesTag true), .run 0 (.pushesTag true), .rollBack 1 false, .jobStep "",
      .jobStep ""] (by decide)
  obtain ⟨r, hr, -, -, -, honce, hcame⟩ :=
    provenance rfl rfl rfl hrun (t := .stable) (i := ⟨1, 0⟩) (by decide)
  cases hr
  exact ⟨hcame, honce⟩

end XfceLinux.Release
