import XfceLinux.Dashboard.Updates

/-!
# The failure ledger

`failures`, `failure_count` and `_summary_elements` are written by six branches of
`parse_line` with different rules. Together they keep the `Ledger` invariant: entries with
one hash are placeholders of different elements, the count covers the entries, and every
element of the Failure Summary has an entry. A Pipeline Summary line then leaves exactly
the listed elements (`pipelineDone_exact`).
-/

namespace XfceLinux.Dashboard

open Lib Lib.Text

/-- Two entries of the ledger that may stand side by side. -/
def Item.Apart (a b : Item) : Prop := a.hash = b.hash → a.hash = [] ∧ a.element ≠ b.element

/-- The invariant of the failure ledger. -/
structure Ledger (s : State) : Prop where
  apart : s.failures.Pairwise Item.Apart
  counted : s.failures.length ≤ s.failureCount
  listed : ∀ e ∈ s.summaryElements, ∃ f ∈ s.failures, f.element = e

theorem Item.apart_of_hash_ne {a b : Item} (h : b.hash ≠ a.hash) : a.Apart b ∧ b.Apart a :=
  ⟨fun he => absurd he.symm h, fun he => absurd he h⟩

theorem Ledger.congr {s t : State} (h : Ledger s) (hf : t.failures = s.failures)
    (hc : t.failureCount = s.failureCount) (he : t.summaryElements = s.summaryElements) :
    Ledger t :=
  ⟨hf ▸ h.apart, hf ▸ hc ▸ h.counted, hf ▸ he ▸ h.listed⟩

theorem Ledger.update {s : State} {fn : State → State} (h : Ledger (fn s)) :
    Ledger (s.update fn) := h.congr rfl rfl rfl

theorem ledger_empty {s : State} (hf : s.failures = []) (he : s.summaryElements = []) :
    Ledger s :=
  ⟨by simp [hf], by simp [hf], by simp [he]⟩

theorem Ledger.pipelineDone {s : State} (h : Ledger s) (time : ℚ) (clean : Str) :
    Ledger (pipelineDone time clean s) := by
  refine ⟨?_, ?_, by simp [Dashboard.pipelineDone]⟩
  · simp only [Dashboard.pipelineDone]
    split
    · exact h.apart.filter _
    · exact h.apart
  · simp only [Dashboard.pipelineDone]
    split
    · exact le_rfl
    · exact h.counted

theorem Ledger.backfillFailures {s : State} (h : Ledger s) (n : Nat) :
    Ledger (backfillFailures n s) := by
  unfold Dashboard.backfillFailures
  split
  · rename_i hn
    exact ⟨h.apart, by have := h.counted; dsimp only; omega, h.listed⟩
  · exact h

theorem Ledger.addFailureElem {s : State} (h : Ledger s) (elem : Str) :
    Ledger (addFailureElem elem s) := by
  unfold Dashboard.addFailureElem
  dsimp only
  split
  · rename_i hany
    obtain ⟨f, hf, hfe⟩ := List.any_eq_true.mp hany
    refine ⟨h.apart, h.counted, fun e he => ?_⟩
    rcases List.mem_insert_iff.mp he with rfl | he
    · exact ⟨f, hf, by simpa using hfe⟩
    · exact h.listed e he
  · rename_i hany
    -- no entry has this element, so the placeholder differs from the other placeholders
    have hne : ∀ f ∈ s.failures, f.element ≠ elem := by simpa using hany
    refine ⟨List.pairwise_append.mpr ⟨h.apart, List.pairwise_singleton _ _, ?_⟩,
      le_max_right _ _, fun e he => ?_⟩
    · intro f hf p hp he
      rw [List.mem_singleton.mp hp] at he ⊢
      exact ⟨he, hne f hf⟩
    · rcases List.mem_insert_iff.mp he with rfl | he
      · exact ⟨placeholder e s.nextOid, by simp, rfl⟩
      · obtain ⟨f, hf, hfe⟩ := h.listed e he
        exact ⟨f, List.mem_append_left _ hf, hfe⟩

theorem Ledger.setFailLog {s : State} (h : Ledger s) (path : Str) :
    Ledger (setFailLog path s) := by
  have hmap : (Dashboard.setFailLog path s).failures.map (fun f => (f.hash, f.element)) =
      s.failures.map fun f => (f.hash, f.element) := map_setFailLog (fun _ => rfl) s
  obtain ⟨hcount, hsummary⟩ := setFailLog_frame path s
  refine ⟨?_, ?_, fun e he => ?_⟩
  · let R (a b : Str × Str) : Prop := a.1 = b.1 → a.1 = [] ∧ a.2 ≠ b.2
    have hR : (s.failures.map fun f => (f.hash, f.element)).Pairwise R :=
      List.pairwise_map.mpr h.apart
    rw [← hmap, List.pairwise_map] at hR
    exact hR
  · have hlen := congrArg List.length hmap
    simp only [List.length_map] at hlen
    rw [hlen, hcount]
    exact h.counted
  · rw [hsummary] at he
    obtain ⟨f, hf, rfl⟩ := h.listed e he
    have hmem : (f.hash, f.element) ∈ s.failures.map fun f => (f.hash, f.element) :=
      List.mem_map_of_mem hf
    rw [← hmap] at hmem
    obtain ⟨f', hf', heq⟩ := List.mem_map.mp hmem
    exact ⟨f', hf', congrArg Prod.snd heq⟩

/-- Entering a live failure keeps the entries apart and every listed element listed. -/
theorem recordFailure_apart {s : State} (item : Item) (h : s.failures.Pairwise Item.Apart) :
    (recordFailure item s).failures.Pairwise Item.Apart := by
  unfold recordFailure
  split
  · exact h
  · rename_i hany
    have hne : ∀ f ∈ s.failures, f.hash ≠ item.hash := by simpa using hany
    split
    · -- the promoted placeholder takes a hash that no entry has
      exact Dict.pairwise_modifyFirst h fun a ha hpa b hb =>
        Item.apart_of_hash_ne (a := item.overwrite a) (hne b hb)
    · refine List.pairwise_append.mpr ⟨h, List.pairwise_singleton _ _, ?_⟩
      intro f hf p hp
      rw [List.mem_singleton.mp hp]
      exact (Item.apart_of_hash_ne (hne f hf)).2

theorem recordFailure_element {s : State} (item : Item) {e : Str}
    (h : ∃ f ∈ s.failures, f.element = e) :
    ∃ f ∈ (recordFailure item s).failures, f.element = e := by
  obtain ⟨f, hf, rfl⟩ := h
  unfold recordFailure
  split
  · exact ⟨f, hf, rfl⟩
  · split
    · simp only [State.writeThrough]
      rcases Dict.mem_modifyFirst_of_mem (p := Item.isPlaceholder item.element)
        (g := item.overwrite) hf with hmem | ⟨hp, hmem⟩
      · exact ⟨f, hmem, rfl⟩
      · simp only [Item.isPlaceholder, Bool.and_eq_true, decide_eq_true_eq] at hp
        exact ⟨_, hmem, hp.1.symm⟩
    · exact ⟨f, List.mem_append_left _ hf, rfl⟩

theorem Ledger.fail {s : State} (h : Ledger s) (element hash : Str) (clock : Clock) :
    Ledger (fail element hash clock s) := by
  unfold Dashboard.fail
  split
  · exact h
  · refine ⟨recordFailure_apart _ h.apart, le_rfl, fun e he => ?_⟩
    dsimp only at he
    rw [recordFailure_summaryElements] at he
    exact recordFailure_element _ (h.listed e he)

theorem Ledger.inner {host : Host} {clean : Str} {s t : State} (h : Ledger s)
    (hst : Inner host clean s t) : Ledger t := by
  cases hst with
  | queue n => exact (h.backfillFailures n).update
  | listed elem => exact (h.addFailureElem elem).update
  | failLog path => exact (h.setFailLog path).update
  | fail clock e => exact (h.fail e.short e.hash clock).update
  | total | recent | start | done | skipPull | pull => exact h.congr rfl rfl rfl

theorem ledger_reachable {host : Host} {s : State} (h : Reachable host s) : Ledger s :=
  reachable_invariant (ledger_empty rfl rfl) (fun _ _ => ledger_empty rfl rfl)
    (fun _ _ _ _ => ledger_empty rfl rfl)
    (fun time clean _ hs => (hs.pipelineDone time clean).update)
    (fun _ _ _ hs hst => hs.inner hst) h

/-- A Pipeline Summary keeps exactly the elements of the Failure Summary. -/
theorem pipelineDone_exact {s : State} (h : Ledger s) (hne : s.summaryElements ≠ [])
    (time : ℚ) (clean : Str) :
    (∀ e, (∃ f ∈ (pipelineDone time clean s).failures, f.element = e) ↔
      e ∈ s.summaryElements) ∧
    (pipelineDone time clean s).failureCount = (pipelineDone time clean s).failures.length := by
  simp only [pipelineDone, hne, ne_eq, not_false_eq_true, if_true, and_true]
  intro e
  constructor
  · rintro ⟨f, hf, rfl⟩
    simpa using (List.mem_filter.mp hf).2
  · intro he
    obtain ⟨f, hf, rfl⟩ := h.listed e he
    exact ⟨f, List.mem_filter.mpr ⟨hf, by simpa using he⟩, rfl⟩

/-- **The failure ledger.** In every reachable state no two entries of `failures` have the
same non-empty hash, entries without a hash have different elements, `failure_count` is at
least the number of entries and every listed element has an entry; so a Pipeline Summary
that follows listed elements leaves exactly these, and counts them. -/
theorem failure_ledger (host : Host) (s : State) (h : Reachable host s) :
    (s.failures.Pairwise fun a b => a.hash ≠ [] → a.hash ≠ b.hash) ∧
    (s.failures.Pairwise fun a b => a.hash = [] → b.hash = [] → a.element ≠ b.element) ∧
    s.failures.length ≤ s.failureCount ∧
    (∀ e ∈ s.summaryElements, ∃ f ∈ s.failures, f.element = e) ∧
    ∀ (clock : Clock) (raw : Str), isSummary raw → s.summaryElements ≠ [] →
      (∀ e, (∃ f ∈ (afterLine host clock raw s).failures, f.element = e) ↔
        e ∈ s.summaryElements) ∧
      (afterLine host clock raw s).failureCount =
        (afterLine host clock raw s).failures.length := by
  have hl := ledger_reachable h
  refine ⟨hl.apart.imp fun hab hne he => hne (hab he).1,
    hl.apart.imp fun hab ha hb => (hab (ha.trans hb.symm)).2, hl.counted, hl.listed, ?_⟩
  intro clock raw hraw hne
  rw [afterLine_summary hraw]
  exact pipelineDone_exact hl hne clock.first (cleanLine raw)

/-- The Failure Summary lists `kwin`, and `dolphin` fails live. -/
def kwinAndDolphin : List Call :=
  ["    kde/plasma/kwin.bst:",
    "[00:00:01][ab][build:kde/apps/dolphin.bst] START   kde/ab-build.log",
    "[00:00:09][ab][build:kde/apps/dolphin.bst] FAILURE Command failed"].map
      fun line => .line ⟨0, 0⟩ line.toList

theorem failure_ledger_kwin :
    (runCalls Host.root kwinAndDolphin {}).failures.length = 2 ∧
      2 ≤ (runCalls Host.root kwinAndDolphin {}).failureCount ∧
      ∀ e, (∃ f ∈ (afterLine Host.root ⟨0, 0⟩ "Pipeline Summary".toList
        (runCalls Host.root kwinAndDolphin {})).failures, f.element = e) ↔
          e ∈ ["kde/plasma/kwin.bst".toList] := by
  have hlength : (runCalls Host.root kwinAndDolphin {}).failures.length = 2 := by decide +kernel
  have helements : (runCalls Host.root kwinAndDolphin {}).summaryElements =
      ["kde/plasma/kwin.bst".toList] := by decide +kernel
  have hsummary : isSummary "Pipeline Summary".toList := by decide +kernel
  obtain ⟨-, -, hcount, -, hdone⟩ := failure_ledger Host.root _ ⟨kwinAndDolphin, rfl⟩
  rw [hlength] at hcount
  have hleft := (hdone ⟨0, 0⟩ _ hsummary (by rw [helements]; decide)).1
  rw [helements] at hleft
  exact ⟨hlength, hcount, hleft⟩

end XfceLinux.Dashboard
