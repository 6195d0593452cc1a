import XfceLinux.Dashboard.Events

/-!
# How often an element is counted

`done` is the sum of four counters. What the lines since the header say about one hash
decides how often its element is counted: once for each SUCCESS and pull line, and once
more when a running build of it has failed (`Course`). The sum over all hashes is `done`
(`done_eq_sum`), so it stays below the number of hashes if and only if the elements that
are counted again are made up for by elements not counted yet (`progress_le_iff`).
-/

namespace XfceLinux.Dashboard

open Lib Lib.Text

/-- The line is a pull or build line of the element with the hash of `e`. -/
structure Structured (host : Host) (raw : Str) (e : Event) : Prop where
  notHeader : isHeader raw = false
  event : event? host (cleanLine raw) = some e
  action : e.action = "build".toList ∨ e.action = "pull".toList
  hash : e.hash ≠ []

/-! ## The course of one element -/

structure Course where
  building : Bool
  /-- A running build has failed. -/
  failed : Bool
  /-- The number of SUCCESS and pull lines. -/
  counted : Nat
deriving DecidableEq

def Course.step (c : Course) : Effect → Course
  | .start => { c with building := true }
  | .done => { c with building := false, counted := c.counted + 1 }
  | .fail => { c with building := false, failed := c.failed || c.building }
  | .skipPull | .pull => { c with counted := c.counted + 1 }
  | .nothing => c

/-- What the events say about the hash `h`. -/
def course (es : List Event) (h : Str) : Course :=
  ((es.filter fun e => e.hash = h).map Event.effect).foldl Course.step ⟨false, false, 0⟩

/-- How often the element is counted. -/
def Course.times (c : Course) : Nat := c.counted + if c.failed then 1 else 0

/-- The hashes that occur. -/
def hashes (es : List Event) : Finset Str := (es.map (·.hash)).toFinset

/-- The counts beyond the first, over all elements. -/
def surplus (es : List Event) : Nat := ∑ h ∈ hashes es, ((course es h).times - 1)

/-- The number of elements that are not counted. -/
def uncounted (es : List Event) : Nat := ((hashes es).filter fun h => (course es h).times = 0).card

theorem course_snoc (es : List Event) (e : Event) (h : Str) :
    course (es ++ [e]) h =
      if e.hash = h then (course es h).step e.effect else course es h := by
  unfold course
  rw [List.filter_append, List.map_append, List.foldl_append]
  by_cases he : e.hash = h
  · rw [if_pos he, List.filter_cons_of_pos (by simpa using he)]
    rfl
  · rw [if_neg he, List.filter_cons_of_neg (by simpa using he)]
    rfl

theorem course_snoc_failed {es : List Event} {e : Event} (he : e.effect ≠ .fail) (h : Str) :
    (course (es ++ [e]) h).failed = (course es h).failed := by
  rw [course_snoc]
  split
  · cases heff : e.effect with
    | fail => exact absurd heff he
    | _ => rfl
  · rfl

theorem course_snoc_building {es : List Event} {e : Event}
    (he : e.effect ≠ .start ∧ e.effect ≠ .done ∧ e.effect ≠ .fail) (h : Str) :
    (course (es ++ [e]) h).building = (course es h).building := by
  rw [course_snoc]
  split
  · cases heff : e.effect with
    | start => exact absurd heff he.1
    | done => exact absurd heff he.2.1
    | fail => exact absurd heff he.2.2
    | _ => rfl
  · rfl

/-- A failure of an element that is being built. -/
theorem course_snoc_fail {es : List Event} {e : Event} (he : e.effect = .fail)
    (hbuilding : (course es e.hash).building = true) (h : Str) :
    course (es ++ [e]) h = if e.hash = h then
      { course es h with building := false, failed := true } else course es h := by
  rw [course_snoc, he]
  split
  · rename_i hh
    rw [hh] at hbuilding
    simp [Course.step, hbuilding]
  · rfl

/-- A failure of an element that is not being built. -/
theorem course_snoc_fail_idle {es : List Event} {e : Event} (he : e.effect = .fail)
    (hidle : (course es e.hash).building = false) (h : Str) :
    course (es ++ [e]) h = course es h := by
  rw [course_snoc, he]
  split
  · rename_i hh
    rw [hh] at hidle
    simp only [Course.step, hidle, Bool.or_false]
    rw [← hidle]
  · rfl

/-- The effects that raise `success_count`, `cached_count` or `pulled`. -/
def Effect.counts : Effect → Bool
  | .done | .skipPull | .pull => true
  | _ => false

/-- The hashes of the lines with such an effect. -/
def countedHashes (es : List Event) : Multiset Str :=
  ((es.filter fun e => e.effect.counts).map (·.hash) : List Str)

theorem counted_eq_count (es : List Event) (h : Str) :
    (course es h).counted = (countedHashes es).count h := by
  unfold countedHashes
  induction es using List.reverseRecOn with
  | nil => rfl
  | append_singleton es e ih =>
    rw [course_snoc, List.filter_append, List.map_append, ← Multiset.coe_add,
      Multiset.count_add, ← ih]
    by_cases he : e.hash = h
    · rw [if_pos he]
      cases heff : e.effect <;> simp [Course.step, Effect.counts, heff, he]
    · rw [if_neg he]
      cases hcounts : e.effect.counts <;> simp [hcounts, Ne.symm he]

/-! ## The counters -/

/-- The state after the events, which follow a header. -/
structure Counted (es : List Event) (s : State) : Prop where
  counters : s.successCount + s.cachedCount + s.pulled =
    (es.filter fun e => e.effect.counts).length
  active : ∀ h, (Dict.get? s.active h).isSome = (course es h).building
  failed : ∀ h, h ∈ s.failures.map (·.hash) ↔ (course es h).failed = true
  nodup : (s.failures.map (·.hash)).Nodup
  hashed : ∀ f ∈ s.failures, f.hash ≠ []
  failureCount : s.failureCount = s.failures.length

theorem Counted.congr {es : List Event} {s t : State} (h : Counted es s)
    (hsuccess : t.successCount = s.successCount) (hcached : t.cachedCount = s.cachedCount)
    (hpulled : t.pulled = s.pulled) (hactive : t.active = s.active)
    (hfailures : t.failures = s.failures) (hcount : t.failureCount = s.failureCount) :
    Counted es t where
  counters := by rw [hsuccess, hcached, hpulled, h.counters]
  active := by rw [hactive]; exact h.active
  failed := by rw [hfailures]; exact h.failed
  nodup := by rw [hfailures]; exact h.nodup
  hashed := by rw [hfailures]; exact h.hashed
  failureCount := by rw [hcount, hfailures, h.failureCount]

theorem counted_header {raw : Str} (h : isHeader raw) (host : Host) (clock : Clock)
    (s : State) : Counted [] (afterLine host clock raw s) := by
  obtain ⟨ts, hts⟩ := afterLine_header h host clock s
  rw [hts]
  exact ⟨rfl, fun _ => rfl, by simp [State.update, setStart, course], .nil,
    by simp [State.update, setStart], rfl⟩

/-- A failure with a hash gets an entry of its own, unless it has one. -/
theorem recordFailure_hashed {s : State} {item : Item} (hs : ∀ f ∈ s.failures, f.hash ≠ []) :
    (recordFailure item s).failures =
      if item.hash ∈ s.failures.map (·.hash) then s.failures else s.failures ++ [item] := by
  have hplaceholder : s.failures.find? (Item.isPlaceholder item.element) = none := by
    rw [List.find?_eq_none]
    intro f hf
    simp [Item.isPlaceholder, hs f hf]
  have hany : (s.failures.any fun f => f.hash = item.hash) = true ↔
      item.hash ∈ s.failures.map (·.hash) := by
    simp [List.mem_map]
  unfold recordFailure
  by_cases hmem : item.hash ∈ s.failures.map (·.hash)
  · rw [if_pos (hany.mpr hmem), if_pos hmem]
  · rw [if_neg (mt hany.mp hmem), if_neg hmem, hplaceholder]

section Recorded

variable {s : State} {item : Item} (hs : ∀ f ∈ s.failures, f.hash ≠ [])

include hs

theorem mem_hashes_recordFailure (h : Str) :
    h ∈ (recordFailure item s).failures.map (·.hash) ↔
      h = item.hash ∨ h ∈ s.failures.map (·.hash) := by
  rw [recordFailure_hashed hs]
  split
  · rename_i hmem
    constructor
    · exact .inr
    · rintro (rfl | hold)
      · exact hmem
      · exact hold
  · rw [List.map_append, List.map_singleton, List.mem_append, List.mem_singleton, or_comm]

theorem nodup_recordFailure (hnodup : (s.failures.map (·.hash)).Nodup) :
    ((recordFailure item s).failures.map (·.hash)).Nodup := by
  rw [recordFailure_hashed hs]
  split
  · exact hnodup
  · rename_i hnew
    rw [List.map_append, List.map_singleton, List.nodup_append]
    refine ⟨hnodup, List.nodup_singleton _, ?_⟩
    intro a ha b hb
    rw [List.mem_singleton.mp hb]
    exact fun hab => hnew (hab ▸ ha)

theorem hashed_recordFailure (hitem : item.hash ≠ []) :
    ∀ f ∈ (recordFailure item s).failures, f.hash ≠ [] := by
  intro f hf
  rw [recordFailure_hashed hs] at hf
  split at hf
  · exact hs f hf
  · rcases List.mem_append.mp hf with hf | hf
    · exact hs f hf
    · rw [List.mem_singleton.mp hf]
      exact hitem

end Recorded

theorem filter_counts_snoc (es : List Event) (e : Event) :
    ((es ++ [e]).filter fun e => e.effect.counts).length =
      (es.filter fun e => e.effect.counts).length + if e.effect.counts then 1 else 0 := by
  rw [List.filter_append, List.length_append]
  cases h : e.effect.counts <;> simp [h]

theorem Counted.fail {es : List Event} {s : State} (h : Counted es s) {e : Event}
    (he : e.effect = .fail) (hash : e.hash ≠ []) (clock : Clock) :
    Counted (es ++ [e]) (Dashboard.fail e.short e.hash clock s) := by
  have hcounters : ((es ++ [e]).filter fun e => e.effect.counts).length =
      (es.filter fun e => e.effect.counts).length := by
    rw [filter_counts_snoc, he]
    rfl
  cases hentry : Dict.get? s.active e.hash with
  | none =>
    have hidle : (course es e.hash).building = false := by rw [← h.active, hentry]; rfl
    have hcourse := course_snoc_fail_idle he hidle
    rw [fail_idle clock hentry]
    exact ⟨by rw [hcounters, h.counters], by simpa only [hcourse] using h.active,
      by simpa only [hcourse] using h.failed, h.nodup, h.hashed, h.failureCount⟩
  | some entry =>
    have hbuilding : (course es e.hash).building = true := by rw [← h.active, hentry]; rfl
    have hcourse := course_snoc_fail he hbuilding
    obtain ⟨item, t, -, hhash, -, -, ht, hfail⟩ := fail_active hentry e.short clock
    have hfailures : t.failures = s.failures := by rw [ht]
    have hhashed : ∀ f ∈ t.failures, f.hash ≠ [] := hfailures ▸ h.hashed
    have hmem : ∀ k, k ∈ (recordFailure item t).failures.map (·.hash) ↔
        k = item.hash ∨ k ∈ t.failures.map (·.hash) := mem_hashes_recordFailure hhashed
    have hnodup : ((recordFailure item t).failures.map (·.hash)).Nodup :=
      nodup_recordFailure hhashed (hfailures ▸ h.nodup)
    have hnonempty := hashed_recordFailure hhashed (hhash ▸ hash)
    rw [hfail]
    refine ⟨?_, ?_, ?_, hnodup, hnonempty, rfl⟩
    · rw [hcounters, ht]
      exact h.counters
    · intro k
      rw [ht, hcourse]
      simp only [Dict.get?_pop]
      split
      · rfl
      · exact h.active k
    · intro k
      refine (hmem k).trans ?_
      rw [hhash, hfailures, hcourse]
      split
      · rename_i hk
        simp [hk]
      · rename_i hk
        rw [h.failed k]
        simp [Ne.symm hk]

theorem Counted.apply {host : Host} {es : List Event} {s : State} (h : Counted es s) {e : Event}
    (hash : e.hash ≠ []) (clock : Clock) :
    Counted (es ++ [e]) (e.effect.apply host clock e s) := by
  have hcounters := filter_counts_snoc es e
  have hsum := h.counters
  have hfailed : e.effect ≠ .fail → ∀ k, k ∈ s.failures.map (·.hash) ↔
      (course (es ++ [e]) k).failed = true := by
    intro hne k
    rw [course_snoc_failed hne]
    exact h.failed k
  have hactive : e.effect ≠ .start ∧ e.effect ≠ .done ∧ e.effect ≠ .fail → ∀ k,
      (Dict.get? s.active k).isSome = (course (es ++ [e]) k).building := by
    intro hne k
    rw [course_snoc_building hne]
    exact h.active k
  cases he : e.effect with
  | fail =>
    exact (h.fail he hash clock).congr rfl rfl rfl rfl rfl rfl
  | nothing =>
    rw [he] at hcounters hfailed hactive
    exact ⟨hcounters ▸ hsum, hactive (by decide), hfailed (by decide), h.nodup, h.hashed,
      h.failureCount⟩
  | skipPull | pull =>
    rw [he] at hcounters hfailed hactive
    refine ⟨?_, hactive (by decide), hfailed (by decide), h.nodup, h.hashed, h.failureCount⟩
    rw [hcounters, ← hsum]
    simp only [Effect.apply, State.update, Dashboard.skipPull, Dashboard.pull, Effect.counts,
      if_true]
    omega
  | start =>
    rw [he] at hcounters hfailed
    refine ⟨hcounters ▸ hsum, ?_, hfailed (by decide), h.nodup, h.hashed, h.failureCount⟩
    intro k
    rw [course_snoc, he]
    simp only [Effect.apply, State.update, Dashboard.start, Dict.get?_set]
    split
    · rfl
    · exact h.active k
  | done =>
    rw [he] at hcounters hfailed
    refine ⟨?_, ?_, hfailed (by decide), h.nodup, h.hashed, h.failureCount⟩
    · rw [hcounters, ← hsum]
      simp only [Effect.apply, State.update, Dashboard.done, Effect.counts, if_true]
      omega
    · intro k
      rw [course_snoc, he]
      simp only [Effect.apply, State.update, Dashboard.done, Dict.get?_pop]
      split
      · rfl
      · exact h.active k

theorem Counted.line {host : Host} {es : List Event} {s : State} (h : Counted es s) {raw : Str}
    {e : Event} (he : Structured host raw e) (clock : Clock) :
    Counted (es ++ [e]) (afterLine host clock raw s) := by
  rw [afterLine_event he.notHeader he.event, applyEvent_eq]
  exact (h.congr (t := s.update (addRecent e.recent)) rfl rfl rfl rfl rfl rfl).apply he.hash clock

theorem Counted.lines {host : Host} {past : List Event} {s : State} (h : Counted past s)
    {ls : List Line} {es : List Event}
    (hls : List.Forall₂ (fun l e => Structured host l.2 e) ls es) :
    Counted (past ++ es) (runLines host ls s) := by
  induction hls generalizing past s with
  | nil => simpa [runLines] using h
  | @cons l e ls es hl _ ih =>
    rw [List.append_cons]
    exact ih (h.line hl l.1)

/-! ## The sum -/

theorem course_of_notMem {es : List Event} {h : Str} (hh : h ∉ es.map (·.hash)) :
    course es h = ⟨false, false, 0⟩ := by
  have hnone : es.filter (fun e => e.hash = h) = [] := by
    rw [List.filter_eq_nil_iff]
    intro e he hhash
    exact hh (List.mem_map.mpr ⟨e, he, of_decide_eq_true hhash⟩)
  rw [course, hnone]
  rfl

/-- `done` counts every element as often as its lines say. -/
theorem done_eq_sum {es : List Event} {s : State} (h : Counted es s) {σ : Type}
    (now : Host.Now σ) : (s.snapshot now).done = ∑ k ∈ hashes es, (course es k).times := by
  have hcounters : ∑ k ∈ hashes es, (course es k).counted =
      s.successCount + s.cachedCount + s.pulled := by
    have hsub : ∀ k ∈ countedHashes es, k ∈ hashes es := by
      intro k hk
      obtain ⟨e, he, rfl⟩ := List.mem_map.mp (Multiset.mem_coe.mp hk)
      exact List.mem_toFinset.mpr (List.mem_map_of_mem (List.mem_of_mem_filter he))
    simp only [counted_eq_count, h.counters]
    rw [Multiset.sum_count_eq_card hsub, countedHashes, Multiset.coe_card, List.length_map]
  have hfailures : (∑ k ∈ hashes es, if (course es k).failed then 1 else 0) =
      s.failureCount := by
    rw [← Finset.card_filter, h.failureCount, ← List.length_map (f := fun f : Item => f.hash),
      ← List.toFinset_card_of_nodup h.nodup]
    congr 1
    ext k
    rw [Finset.mem_filter, List.mem_toFinset, h.failed, hashes, List.mem_toFinset]
    constructor
    · exact And.right
    · intro hk
      refine ⟨?_, hk⟩
      by_contra hno
      rw [course_of_notMem hno] at hk
      cases hk
  simp only [Course.times, Finset.sum_add_distrib, hcounters, hfailures, State.snapshot]

/-- **When progress stays below the number of elements.** Behind a header and any pull and
build lines, `done` is at most the number of hashes that occur in the lines if and only if
the repeated counts of elements are no more than the elements without a count. -/
theorem progress_le_iff (host : Host) (s : State) (header : Line) (hheader : isHeader header.2)
    (lines : List Line) (es : List Event)
    (hlines : List.Forall₂ (fun l e => Structured host l.2 e) lines es) {σ : Type}
    (now : Host.Now σ) :
    ((runLines host (header :: lines) s).snapshot now).done ≤ (hashes es).card ↔
      surplus es ≤ uncounted es := by
  have hcounted : Counted es (runLines host (header :: lines) s) :=
    (counted_header hheader host header.1 s).lines hlines
  rw [done_eq_sum hcounted now]
  have hbalance : (∑ h ∈ hashes es, (course es h).times) + uncounted es =
      surplus es + (hashes es).card := by
    rw [uncounted, surplus, Finset.card_filter, Finset.card_eq_sum_ones,
      ← Finset.sum_add_distrib, ← Finset.sum_add_distrib]
    apply Finset.sum_congr rfl
    intro h _
    split <;> omega
  omega

/-- A header. -/
def buildStarted : Line := (⟨0, 0⟩, "=== Build started at 2026-01-01 00:00:00 ===".toList)

/-- An artifact that is not cached remotely is built. -/
def missedAndBuilt : List Line :=
  [(⟨0, 0⟩, "[00:00:01][abcdef][pull:xfce-linux/session.bst] SKIPPED Pull".toList),
    (⟨0, 0⟩,
      "[00:00:01][abcdef][build:xfce-linux/session.bst] START   xfce/abcdef-build.log".toList),
    (⟨0, 0⟩,
      "[00:00:09][abcdef][build:xfce-linux/session.bst] SUCCESS xfce/abcdef-build.log".toList)]

def missedAndBuiltEvents : List Event :=
  [⟨"SKIPPED".toList, "pull".toList, "xfce-linux/session.bst".toList, "abcdef".toList,
      "Pull".toList, false⟩,
    ⟨"START".toList, "build".toList, "xfce-linux/session.bst".toList, "abcdef".toList,
      "xfce/abcdef-build.log".toList, true⟩,
    ⟨"SUCCESS".toList, "build".toList, "xfce-linux/session.bst".toList, "abcdef".toList,
      "xfce/abcdef-build.log".toList, true⟩]

theorem missedAndBuilt_structured :
    List.Forall₂ (fun l e => Structured Host.root l.2 e) missedAndBuilt missedAndBuiltEvents := by
  refine .cons ⟨?_, ?_, .inr rfl, ?_⟩ (.cons ⟨?_, ?_, .inl rfl, ?_⟩
    (.cons ⟨?_, ?_, .inl rfl, ?_⟩ .nil))
  all_goals decide +kernel

theorem progress_le_iff_missedAndBuilt :
    ((runLines Host.root (buildStarted :: missedAndBuilt) {}).snapshot ⟨0, true, ()⟩).done ≤
        (hashes missedAndBuiltEvents).card ↔
      surplus missedAndBuiltEvents ≤ uncounted missedAndBuiltEvents :=
  progress_le_iff Host.root {} buildStarted (by decide +kernel) missedAndBuilt
    missedAndBuiltEvents missedAndBuilt_structured ⟨0, true, ()⟩

/-- One element, counted twice. -/
theorem element_counted_twice :
    ¬ ∀ (host : Host) (s : State) (header : Line) (lines : List Line) (es : List Event),
      isHeader header.2 → List.Forall₂ (fun l e => Structured host l.2 e) lines es →
      ∀ now : Host.Now Unit,
        ((runLines host (header :: lines) s).snapshot now).done ≤ (hashes es).card := by
  intro h
  have htwice := h Host.root {} buildStarted missedAndBuilt missedAndBuiltEvents
    (by decide +kernel) missedAndBuilt_structured ⟨0, true, ()⟩
  revert htwice
  decide +kernel

end XfceLinux.Dashboard
