import XfceLinux.Dashboard.Events

/-!
# The books of the dashboard

`completed`, `failures` and `success_count` are kept by different branches of `parse_line`, and
a record of a failure may stand in both lists. In every reachable state the count is the number
of successes in `completed`, a record that stands in both lists is the same in both, and a
failure with a hash is the failure of a build that was seen to fail (`books_balance`).
-/

namespace XfceLinux.Dashboard

open Lib Lib.Text

/-- A build with the hash, the element and the duration of `f` was seen to fail. -/
def Recorded (completed : List Item) (f : Item) : Prop :=
  ∃ c ∈ completed, c.status = .failure ∧ c.hash = f.hash ∧ c.element = f.element ∧
    c.duration = f.duration

structure Books (s : State) : Prop where
  numbered : ∀ c ∈ s.completed, c.oid < s.nextOid
  entered : ∀ f ∈ s.failures, f.oid < s.nextOid ∧ f.status = .failure
  apart : s.failures.Pairwise fun f f' => f.oid ≠ f'.oid
  shared : ∀ c ∈ s.completed, ∀ f ∈ s.failures, c.oid = f.oid → c = f
  succeeded : s.successCount = s.completed.countP fun c => c.status = .success
  recorded : ∀ f ∈ s.failures, f.hash ≠ [] → Recorded s.completed f

theorem Recorded.mono {completed more : List Item} {f : Item} (h : Recorded completed f)
    (hsub : completed ⊆ more) : Recorded more f := by
  obtain ⟨c, hc, hsame⟩ := h
  exact ⟨c, hsub hc, hsame⟩

theorem Books.congr {s t : State} (h : Books s) (hc : t.completed = s.completed)
    (hf : t.failures = s.failures) (ho : t.nextOid = s.nextOid)
    (hs : t.successCount = s.successCount) : Books t := by
  constructor <;> simp only [hc, hf, ho, hs]
  exacts [h.numbered, h.entered, h.apart, h.shared, h.succeeded, h.recorded]

theorem books_empty {s : State} (hc : s.completed = []) (hf : s.failures = [])
    (hs : s.successCount = 0) : Books s := by
  constructor <;> simp [hc, hf, hs]

theorem Books.filter {s t : State} (h : Books s) (p : Item → Bool)
    (hc : t.completed = s.completed) (hf : t.failures = s.failures.filter p)
    (ho : t.nextOid = s.nextOid) (hs : t.successCount = s.successCount) : Books t := by
  have hsub : ∀ f ∈ t.failures, f ∈ s.failures := by
    intro f hmem
    rw [hf] at hmem
    exact List.mem_of_mem_filter hmem
  constructor
  · simpa only [hc, ho] using h.numbered
  · intro f hmem
    rw [ho]
    exact h.entered f (hsub f hmem)
  · rw [hf]
    exact h.apart.filter p
  · intro c hmem f hfail
    exact h.shared c (hc ▸ hmem) f (hsub f hfail)
  · rw [hs, hc]
    exact h.succeeded
  · intro f hmem
    rw [hc]
    exact h.recorded f (hsub f hmem)

/-! ## Writing through -/

section Write

variable {s : State} (h : Books s) {f : Item} {before after : List Item}
  (hfailures : s.failures = before ++ f :: after) {g : Item → Item}

include h hfailures

/-- The written record is the only one with its identity. -/
theorem Books.oid_ne {f' : Item} (hf' : f' ∈ before ++ after) : f'.oid ≠ f.oid := by
  have hapart := h.apart
  rw [hfailures, List.pairwise_append, List.pairwise_cons] at hapart
  obtain ⟨-, ⟨hafter, -⟩, hbefore⟩ := hapart
  rcases List.mem_append.mp hf' with hf' | hf'
  · exact hbefore f' hf' f List.mem_cons_self
  · exact Ne.symm (hafter f' hf')

theorem Books.eq_of_oid {c : Item} (hc : c ∈ s.completed) (hoid : c.oid = f.oid) : c = f :=
  h.shared c hc f (by rw [hfailures]; exact List.mem_append_right _ List.mem_cons_self) hoid

/-- A failure that is overwritten in place, and written through to `completed`. -/
theorem Books.write (hoid : (g f).oid = f.oid) (hstatus : (g f).status = .failure)
    (hkeep : f.hash ≠ [] → (g f).hash = f.hash ∧ (g f).element = f.element ∧
      (g f).duration = f.duration)
    (hnew : (g f).hash ≠ [] → Recorded s.completed (g f)) :
    Books ({ s with failures := before ++ g f :: after }.writeThrough f.oid g) := by
  have hmem : f ∈ s.failures := by
    rw [hfailures]
    exact List.mem_append_right _ List.mem_cons_self
  have hold : ∀ f' ∈ before ++ after, f' ∈ s.failures := by
    intro f' hf'
    rw [hfailures]
    rcases List.mem_append.mp hf' with hf' | hf'
    · exact List.mem_append_left _ hf'
    · exact List.mem_append_right _ (List.mem_cons_of_mem _ hf')
  have hcases : ∀ f' ∈ before ++ g f :: after, f' = g f ∨ f' ∈ before ++ after := by
    intro f' hf'
    simp only [List.mem_append, List.mem_cons] at hf' ⊢
    tauto
  -- an overwritten record of `completed` is `f` itself
  have hwritten : ∀ c ∈ s.completed,
      (if c.oid = f.oid then g c else c) = if c.oid = f.oid then g f else c := by
    intro c hc
    split
    · rename_i hco
      rw [h.eq_of_oid hfailures hc hco]
    · rfl
  have hrecorded : ∀ f', f'.hash ≠ [] → Recorded s.completed f' →
      Recorded (s.completed.map fun c => if c.oid = f.oid then g c else c) f' := by
    rintro f' hne ⟨c, hc, hcs, hch, hce, hcd⟩
    refine ⟨_, List.mem_map_of_mem hc, ?_⟩
    rw [hwritten c hc]
    split
    · rename_i hco
      have hcf := h.eq_of_oid hfailures hc hco
      obtain ⟨hh, he, hd⟩ := hkeep (by rw [← hcf, hch]; exact hne)
      exact ⟨hstatus, by rw [hh, ← hcf, hch], by rw [he, ← hcf, hce], by rw [hd, ← hcf, hcd]⟩
    · exact ⟨hcs, hch, hce, hcd⟩
  constructor
  · intro c' hc'
    obtain ⟨c, hc, rfl⟩ := List.mem_map.mp hc'
    rw [hwritten c hc]
    split
    · rw [hoid]
      exact (h.entered f hmem).1
    · exact h.numbered c hc
  · intro f' hf'
    rcases hcases f' hf' with rfl | hf'
    · exact ⟨hoid ▸ (h.entered f hmem).1, hstatus⟩
    · exact h.entered f' (hold f' hf')
  · have hapart := h.apart
    rw [hfailures, List.pairwise_append, List.pairwise_cons] at hapart
    simpa only [State.writeThrough, List.pairwise_append, List.pairwise_cons, List.mem_cons,
      forall_eq_or_imp, hoid] using hapart
  · intro c' hc' f' hf' hsame
    obtain ⟨c, hc, rfl⟩ := List.mem_map.mp hc'
    rw [hwritten c hc] at hsame ⊢
    rcases hcases f' hf' with rfl | hf'
    · split at hsame
      · rename_i hco
        rw [if_pos hco]
      · rename_i hco
        exact absurd (hsame.trans hoid) hco
    · have hne := h.oid_ne hfailures hf'
      split at hsame
      · exact absurd (hsame.symm.trans hoid) hne
      · rename_i hco
        rw [if_neg hco]
        exact h.shared c hc f' (hold f' hf') hsame
  · have hsuccess : s.successCount = s.completed.countP fun c => c.status = .success := h.succeeded
    simp only [State.writeThrough, List.countP_map]
    rw [hsuccess]
    refine List.countP_congr fun c hc => ?_
    simp only [Function.comp_apply, decide_eq_true_eq]
    rw [hwritten c hc]
    split
    · rename_i hco
      rw [h.eq_of_oid hfailures hc hco, hstatus, (h.entered f hmem).2]
    · rfl
  · intro f' hf' hne
    rcases hcases f' hf' with rfl | hf'
    · exact hrecorded (g f) hne (hnew hne)
    · exact hrecorded f' hne (h.recorded f' (hold f' hf') hne)

end Write

/-! ## The updates -/

/-- A new record in `completed`. -/
theorem Books.complete {s t : State} (h : Books s) {item : Item} (hoid : item.oid = s.nextOid)
    (hc : t.completed = s.completed ++ [item]) (hf : t.failures = s.failures)
    (ho : t.nextOid = s.nextOid + 1)
    (hs : t.successCount = s.successCount + if item.status = .success then 1 else 0) :
    Books t := by
  have hcases : ∀ c ∈ t.completed, c ∈ s.completed ∨ c = item := by
    intro c hmem
    rw [hc] at hmem
    exact (List.mem_append.mp hmem).imp_right List.mem_singleton.mp
  constructor
  · intro c hmem
    rw [ho]
    rcases hcases c hmem with hmem | rfl
    · exact Nat.lt_succ_of_lt (h.numbered c hmem)
    · rw [hoid]
      exact Nat.lt_succ_self _
  · intro f hmem
    rw [hf] at hmem
    rw [ho]
    exact ⟨Nat.lt_succ_of_lt (h.entered f hmem).1, (h.entered f hmem).2⟩
  · rw [hf]
    exact h.apart
  · intro c hmem f hfail hsame
    rw [hf] at hfail
    rcases hcases c hmem with hmem | rfl
    · exact h.shared c hmem f hfail hsame
    · have hless := (h.entered f hfail).1
      rw [← hsame, hoid] at hless
      exact absurd hless (lt_irrefl _)
  · rw [hs, hc, List.countP_append, h.succeeded]
    simp [List.countP_singleton]
  · intro f hmem hne
    rw [hf] at hmem
    rw [hc]
    exact (h.recorded f hmem hne).mono (List.subset_append_left _ _)

/-- A new record in `failures`. -/
theorem Books.enter {s t : State} (h : Books s) {item : Item} (hstatus : item.status = .failure)
    (hless : item.oid < t.nextOid) (ho : s.nextOid ≤ t.nextOid)
    (hnew : ∀ f ∈ s.failures, f.oid ≠ item.oid)
    (hshared : ∀ c ∈ s.completed, c.oid = item.oid → c = item)
    (hrecorded : item.hash ≠ [] → Recorded s.completed item) (hc : t.completed = s.completed)
    (hf : t.failures = s.failures ++ [item]) (hs : t.successCount = s.successCount) : Books t := by
  have hcases : ∀ f ∈ t.failures, f ∈ s.failures ∨ f = item := by
    intro f hmem
    rw [hf] at hmem
    exact (List.mem_append.mp hmem).imp_right List.mem_singleton.mp
  constructor
  · intro c hmem
    rw [hc] at hmem
    exact lt_of_lt_of_le (h.numbered c hmem) ho
  · intro f hmem
    rcases hcases f hmem with hmem | rfl
    · exact ⟨lt_of_lt_of_le (h.entered f hmem).1 ho, (h.entered f hmem).2⟩
    · exact ⟨hless, hstatus⟩
  · rw [hf, List.pairwise_append]
    refine ⟨h.apart, List.pairwise_singleton _ _, fun f hmem f' hmem' => ?_⟩
    rw [List.mem_singleton.mp hmem']
    exact hnew f hmem
  · intro c hmem f hfail hsame
    rw [hc] at hmem
    rcases hcases f hfail with hfail | rfl
    · exact h.shared c hmem f hfail hsame
    · exact hshared c hmem hsame
  · rw [hs, hc]
    exact h.succeeded
  · intro f hmem
    rw [hc]
    rcases hcases f hmem with hmem | rfl
    · exact h.recorded f hmem
    · exact hrecorded

theorem Books.addFailureElem {s : State} (h : Books s) (elem : Str) :
    Books (addFailureElem elem s) := by
  unfold Dashboard.addFailureElem
  dsimp only
  split
  · exact h.congr rfl rfl rfl rfl
  · have hnew : ∀ f ∈ s.failures, f.oid ≠ (placeholder elem s.nextOid).oid :=
      fun f hf => Nat.ne_of_lt (h.entered f hf).1
    have hshared : ∀ c ∈ s.completed, c.oid = (placeholder elem s.nextOid).oid →
        c = placeholder elem s.nextOid :=
      fun c hc hoid => absurd hoid (Nat.ne_of_lt (h.numbered c hc))
    exact h.enter rfl (Nat.lt_succ_self _) (Nat.le_succ _) hnew hshared
      (fun hne => absurd rfl hne) rfl rfl rfl

theorem Books.setFailLog {s : State} (h : Books s) (path : Str) : Books (setFailLog path s) := by
  unfold Dashboard.setFailLog
  split
  · exact h
  · rename_i f hfind
    obtain ⟨hlacks, before, after, hsplit, hbefore⟩ := List.find?_eq_some_iff_append.mp hfind
    have hfailures : s.failures = after.reverse ++ f :: before.reverse := by
      rw [← List.reverse_reverse s.failures, hsplit]
      simp
    have hmodify : (Dict.modifyFirst Item.lacksLog (Item.setLog path) s.failures.reverse).reverse =
        after.reverse ++ f.setLog path :: before.reverse := by
      rw [hsplit, Dict.modifyFirst_append (fun b hb => by simpa using hbefore b hb) hlacks]
      simp
    rw [hmodify]
    refine h.write hfailures rfl (h.entered f ?_).2 (fun _ => ⟨rfl, rfl, rfl⟩) fun hne => ?_
    · rw [hfailures]
      exact List.mem_append_right _ List.mem_cons_self
    · exact h.recorded f (by rw [hfailures]; exact List.mem_append_right _ List.mem_cons_self) hne

theorem Books.recordFailure {t : State} (h : Books t) {item : Item}
    (hstatus : item.status = .failure) (hitem : item ∈ t.completed)
    (hnew : ∀ f ∈ t.failures, f.oid ≠ item.oid)
    (hshared : ∀ c ∈ t.completed, c.oid = item.oid → c = item) :
    Books (recordFailure item t) := by
  have hrecorded : Recorded t.completed item := ⟨item, hitem, hstatus, rfl, rfl, rfl⟩
  unfold Dashboard.recordFailure
  split
  · exact h
  split
  · rename_i f hfind
    obtain ⟨hplaceholder, before, after, hsplit, hbefore⟩ :=
      List.find?_eq_some_iff_append.mp hfind
    have hnohash : f.hash = [] := by
      simp only [Item.isPlaceholder, Bool.and_eq_true, decide_eq_true_eq] at hplaceholder
      exact hplaceholder.2
    have hmodify : Dict.modifyFirst (Item.isPlaceholder item.element) item.overwrite t.failures =
        before ++ item.overwrite f :: after := by
      rw [hsplit]
      exact Dict.modifyFirst_append (fun b hb => by simpa using hbefore b hb) hplaceholder
    rw [hmodify]
    exact h.write hsplit rfl hstatus (fun hne => absurd hnohash hne) fun _ => hrecorded
  · exact h.enter hstatus (h.numbered item hitem) le_rfl hnew hshared (fun _ => hrecorded) rfl rfl
      rfl

theorem Books.fail {s : State} (h : Books s) (element hash : Str) (clock : Clock) :
    Books (fail element hash clock s) := by
  cases hentry : Dict.get? s.active hash with
  | none =>
    rw [fail_idle clock hentry]
    exact h
  | some entry =>
    obtain ⟨item, t, -, -, hstatus, hoid, ht, hfail⟩ := fail_active hentry element clock
    have hcompleted : t.completed = s.completed ++ [item] := by rw [ht]
    have hfailures : t.failures = s.failures := by rw [ht]
    have hbooks : Books t := h.complete hoid hcompleted hfailures (by rw [ht])
      (by rw [ht, hstatus]; rfl)
    have hitem : item ∈ t.completed := by simp [hcompleted]
    have hrecord := hbooks.recordFailure hstatus hitem
      (fun f hf => by
        rw [hoid]
        exact Nat.ne_of_lt (h.entered f (hfailures ▸ hf)).1)
      fun c hc hsame => by
        rw [hcompleted, List.mem_append, List.mem_singleton] at hc
        refine hc.resolve_left fun hold => ?_
        have hless := h.numbered c hold
        rw [hsame, hoid] at hless
        exact lt_irrefl _ hless
    rw [hfail]
    rw [recordFailure_frame] at hrecord
    exact hrecord.congr rfl rfl rfl rfl

theorem Books.inner {host : Host} {clean : Str} {s t : State} (h : Books s)
    (hst : Inner host clean s t) : Books t := by
  cases hst with
  | queue n =>
    unfold State.update backfillFailures
    split <;> exact h.congr rfl rfl rfl rfl
  | listed elem => exact (h.addFailureElem elem).congr rfl rfl rfl rfl
  | failLog path => exact (h.setFailLog path).congr rfl rfl rfl rfl
  | done clock e =>
    have hdone : Books (done e.short e.hash clock s) := h.complete rfl rfl rfl rfl rfl
    exact hdone.congr rfl rfl rfl rfl
  | fail clock e => exact (h.fail e.short e.hash clock).congr rfl rfl rfl rfl
  | total | recent | start | skipPull | pull => exact h.congr rfl rfl rfl rfl

theorem Books.pipelineDone {s : State} (h : Books s) (time : ℚ) (clean : Str) :
    Books (pipelineDone time clean s) := by
  by_cases hlisted : s.summaryElements ≠ []
  · exact h.filter (fun f => f.element ∈ s.summaryElements) rfl
      (by simp only [Dashboard.pipelineDone, if_pos hlisted]) rfl rfl
  · exact h.congr rfl (by simp only [Dashboard.pipelineDone, if_neg hlisted]) rfl rfl

theorem books_runCalls (host : Host) (cs : List Call) : Books (runCalls host cs {}) :=
  reachable_invariant (books_empty rfl rfl rfl) (fun _ _ => books_empty rfl rfl rfl)
    (fun _ _ _ _ => books_empty rfl rfl rfl)
    (fun time clean _ hs => (hs.pipelineDone time clean).congr rfl rfl rfl rfl)
    (fun _ _ _ hs hst => hs.inner hst) ⟨cs, rfl⟩

/-- **The books balance.** After any sequence of lines and resets the snapshot counts the
successes of `completed`, a record that stands in `completed` and in `failures` is the same in
both, and for each failure with a hash a build of that hash, element and duration was seen to
fail. -/
theorem books_balance {σ : Type} (host : Host) (cs : List Call) (now : Host.Now σ) :
    ((runCalls host cs {}).snapshot now).success =
        (runCalls host cs {}).completed.countP (fun c => c.status = .success) ∧
      (∀ c ∈ ((runCalls host cs {}).snapshot now).completed,
        ∀ f ∈ ((runCalls host cs {}).snapshot now).failures, c.oid = f.oid → c = f) ∧
      ∀ f ∈ ((runCalls host cs {}).snapshot now).failures, f.status = .failure ∧
        (f.hash ≠ [] → Recorded (runCalls host cs {}).completed f) := by
  have h := books_runCalls host cs
  refine ⟨h.succeeded, fun c hc f hf => h.shared c ?_ f hf, fun f hf =>
    ⟨(h.entered f hf).2, h.recorded f hf⟩⟩
  exact List.mem_of_mem_drop hc

end XfceLinux.Dashboard
