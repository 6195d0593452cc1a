import XfceLinux.Lib.Lines
import XfceLinux.Lib.Matches
import XfceLinux.Dashboard.Indented

/-!
# Root-cause failures and the Pipeline Summary

A Pipeline Summary keeps the failures whose elements `FAILURE_ELEM_RE` recognised in the
lines of its sub-run, or all of them when it recognised none. The expression only knows
elements below `kde/` (`failureElem_kde`), while the live events record every element; so
a failure survives exactly when nothing was recognised or its own element was
(`root_cause_kept_iff`).
-/

namespace XfceLinux.Dashboard

open Lib Lib.Text Lib.Regex Relation

/-! ## What `FAILURE_ELEM_RE` recognises -/

/-- A character of an element path below `kde/`. -/
def isPathChar (u : Unicode) (c : Char) : Bool := u.isWord c || oneOf "/.-" c

/-- An element that `FAILURE_ELEM_RE` knows. -/
def KdeElement (u : Unicode) (elem : Str) : Prop :=
  ∃ m, m ≠ [] ∧ (∀ c ∈ m, isPathChar u c) ∧ elem = "kde/".toList ++ m ++ ".bst".toList

/-- A junction in front of an element: nothing, or `name.bst:`. -/
def Junction (u : Unicode) (j : Str) : Prop :=
  j = [] ∨ ∃ w, w ≠ [] ∧ (∀ c ∈ w, u.isWord c || c == '-') ∧ j = w ++ ".bst:".toList

theorem failureElemRe_iff {u : Unicode} {clean : Str} :
    (matchStart (failureElemRe u) clean).isSome ↔
      ∃ ws j elem tail, clean = ws ++ j ++ elem ++ ':' :: tail ∧ ws ≠ [] ∧
        (∀ c ∈ ws, isSpace c) ∧ Junction u j ∧ KdeElement u elem ∧ ∀ c ∈ tail, isSpace c := by
  rw [matchStart_isSome]
  simp only [failureElemRe, space, mem_run_cat_cons, mem_run_cat_nil, mem_run_bos,
    mem_run_plus_set, mem_run_opt, mem_run_group, mem_run_lit, mem_run_star_set, mem_run_eos]
  constructor
  · rintro ⟨d, c₀, ⟨-, rfl⟩, c₁, ⟨ws, r₁, h₁, hne, hws, rfl⟩, c₂, hj, c₃, ⟨r₃, h₃, rfl⟩,
      c₄, ⟨m, r₄, h₄, hm, hmc, rfl⟩, c₅, ⟨r₅, h₅, rfl⟩, c₆, ⟨tail, r₆, h₆, ht, rfl⟩, c₇,
      ⟨heos, rfl⟩, rfl⟩
    have hr₆ : ∀ c ∈ r₆, isSpace c := by
      rcases heos with h | h <;> simp only [advance_rest] at h <;> subst h
      · simp
      · intro c hc
        rw [List.mem_singleton.mp hc]
        decide
    have htail : ∀ c ∈ tail ++ r₆, isSpace c := by
      intro c hc
      rcases List.mem_append.mp hc with hc | hc
      exacts [ht c hc, hr₆ c hc]
    have helem : KdeElement u ("kde/".toList ++ m ++ ".bst".toList) := ⟨m, hm, hmc, rfl⟩
    simp only [advance_rest] at h₄ h₅ h₆
    subst h₆ h₅ h₄
    rcases hj with ⟨e, ⟨e₁, ⟨w, s₁, k₁, hw, hwc, rfl⟩, e₂, ⟨s₂, k₂, rfl⟩, rfl⟩, rfl⟩ | rfl
    · simp only [advance_rest] at k₁ k₂ h₁ h₃
      subst k₂
      refine ⟨ws, w ++ ".bst:".toList, _, _, ?_, hne, hws, .inr ⟨w, hw, hwc, rfl⟩, helem, htail⟩
      rw [h₁, k₁, h₃]
      simp
    · simp only [advance_rest] at h₁ h₃
      refine ⟨ws, [], _, _, ?_, hne, hws, .inl rfl, helem, htail⟩
      rw [h₁, h₃]
      simp
  · rintro ⟨ws, j, elem, tail, rfl, hne, hws, hj, ⟨m, hm, hmc, rfl⟩, ht⟩
    let body := "kde/".toList ++ (m ++ (".bst:".toList ++ tail))
    have hbody : "kde/".toList ++ m ++ ".bst".toList ++ ':' :: tail = body := by simp [body]
    rcases hj with rfl | ⟨w, hw, hwc, rfl⟩
    · exact ⟨_, _, ⟨trivial, rfl⟩, _, ⟨ws, body, by rw [← hbody]; simp, hne, hws, rfl⟩,
        _, .inr rfl, _, ⟨_, rfl, rfl⟩, _, ⟨m, _, rfl, hm, hmc, rfl⟩, _,
        ⟨tail, rfl, rfl⟩, _, ⟨tail, [], by simp, ht, rfl⟩, _, ⟨.inl rfl, rfl⟩, rfl⟩
    · exact ⟨_, _, ⟨trivial, rfl⟩, _,
        ⟨ws, w ++ (".bst:".toList ++ body), by rw [← hbody]; simp, hne, hws, rfl⟩, _,
        .inl ⟨_, ⟨_, ⟨w, ".bst:".toList ++ body, rfl, hw, hwc, rfl⟩, _,
          ⟨body, rfl, rfl⟩, rfl⟩, rfl⟩, _, ⟨_, rfl, rfl⟩, _, ⟨m, _, rfl, hm, hmc, rfl⟩, _,
        ⟨tail, rfl, rfl⟩, _, ⟨tail, [], by simp, ht, rfl⟩, _, ⟨.inl rfl, rfl⟩, rfl⟩

theorem KdeElement.notMem_colon {u : Unicode} {elem : Str} (h : KdeElement u elem) :
    ':' ∉ elem := by
  obtain ⟨m, -, hm, rfl⟩ := h
  have hcolon : ':' ∉ m := by
    intro hc
    have := hm _ hc
    simp [isPathChar, Unicode.isWord, oneOf, u.isAlnum_ascii ':' (by decide)] at this
  simp [hcolon]

theorem Junction.lstrip {u : Unicode} {j elem : Str} (hj : Junction u j)
    (helem : KdeElement u elem) (rest : Str) :
    lstrip isSpace (j ++ elem ++ rest) = j ++ elem ++ rest := by
  apply lstrip_eq_self
  intro c hc
  rcases hj with rfl | ⟨w, hw, hwc, rfl⟩
  · obtain ⟨m, -, -, rfl⟩ := helem
    have : c = 'k' := by simpa [eq_comm] using hc
    subst this
    decide
  · obtain ⟨x, w, rfl⟩ := List.exists_cons_of_ne_nil hw
    have : c = x := by simpa [eq_comm] using hc
    subst this
    have hx := hwc c List.mem_cons_self
    simp only [Unicode.isWord, Bool.or_eq_true, beq_iff_eq] at hx
    rcases hx with (hx | rfl) | rfl
    · exact u.isAlnum_not_space c hx
    all_goals decide

/-- A Failure Summary line of a `kde/` element is recognised under the element's path. -/
theorem failureElem_eq (host : Host) {ws j elem tail : Str} (hne : ws ≠ [])
    (hws : ∀ c ∈ ws, isSpace c) (hj : Junction host.unicode j)
    (helem : KdeElement host.unicode elem) (ht : ∀ c ∈ tail, isSpace c) :
    failureElem host (ws ++ j ++ elem ++ ':' :: tail) = some elem := by
  have hsome := failureElemRe_iff.mpr ⟨ws, j, elem, tail, rfl, hne, hws, hj, helem, ht⟩
  rw [failureElem, if_pos hsome, Option.some.injEq]
  have hstrip : strip isSpace (ws ++ j ++ elem ++ ':' :: tail) = j ++ elem ++ [':'] := by
    have happ : ws ++ j ++ elem ++ ':' :: tail = ws ++ (j ++ elem ++ (':' :: tail)) := by simp
    rw [strip, happ, lstrip_append hws, hj.lstrip helem, List.append_cons,
      rstrip_append ht, rstrip_append_singleton (by decide)]
  have hcolons : rstrip (· == ':') (j ++ elem ++ [':']) = j ++ elem := by
    obtain ⟨m, -, -, rfl⟩ := helem
    have happ : j ++ ("kde/".toList ++ m ++ ".bst".toList) =
        j ++ ("kde/".toList ++ m ++ ".bs".toList) ++ ['t'] := by simp
    rw [rstrip_append (by simp), happ, rstrip_append_singleton (by decide)]
  rw [hstrip, hcolons]
  rcases hj with rfl | ⟨w, -, -, rfl⟩
  · exact rsplitLast_of_notMem helem.notMem_colon
  · have happ : w ++ ".bst:".toList ++ elem = w ++ ".bst".toList ++ ':' :: elem := by simp
    rw [happ]
    exact rsplitLast_append_cons helem.notMem_colon _

theorem exists_of_failureElem {host : Host} {clean elem : Str}
    (h : failureElem host clean = some elem) :
    ∃ ws j tail, clean = ws ++ j ++ elem ++ ':' :: tail ∧ ws ≠ [] ∧ (∀ c ∈ ws, isSpace c) ∧
      Junction host.unicode j ∧ KdeElement host.unicode elem ∧ ∀ c ∈ tail, isSpace c := by
  have hsome : (matchStart (failureElemRe host.unicode) clean).isSome := by
    by_contra hn
    rw [failureElem, if_neg hn] at h
    cases h
  obtain ⟨ws, j, elem', tail, rfl, hne, hws, hj, helem, ht⟩ := failureElemRe_iff.mp hsome
  rw [failureElem_eq host hne hws hj helem ht, Option.some.injEq] at h
  subst h
  exact ⟨ws, j, tail, rfl, hne, hws, hj, helem, ht⟩

/-- Nothing but `kde/` elements is ever recognised. -/
theorem failureElem_kde {host : Host} {clean elem : Str}
    (h : failureElem host clean = some elem) : KdeElement host.unicode elem := by
  obtain ⟨-, -, -, -, -, -, -, helem, -⟩ := exists_of_failureElem h
  exact helem

/-! ## Recognised lines never raise -/

theorem not_space_of_name {u : Unicode} {c : Char} (h : u.isWord c || c == '-') :
    isSpace c = false := by
  simp only [Unicode.isWord, Bool.or_eq_true, beq_iff_eq] at h
  rcases h with (h | rfl) | rfl
  · exact u.isAlnum_not_space c h
  all_goals decide

theorem Junction.not_space {u : Unicode} {j : Str} (h : Junction u j) :
    ∀ c ∈ j, isSpace c = false := by
  rcases h with rfl | ⟨w, -, hw, rfl⟩
  · simp
  · exact List.forall_mem_append.mpr
      ⟨fun c hc => not_space_of_name (hw c hc), by simp [isSpace]⟩

theorem not_space_of_isPathChar {u : Unicode} {c : Char} (h : isPathChar u c) :
    isSpace c = false := by
  have hdots : ∀ c ∈ "/.-".toList, isSpace c = false := by simp [isSpace]
  simp only [isPathChar, oneOf, Bool.or_eq_true, List.contains_iff_mem] at h
  rcases h with hword | hdot
  · exact not_space_of_name (u := u) (by simp [hword])
  · exact hdots c hdot

theorem KdeElement.not_space {u : Unicode} {elem : Str} (h : KdeElement u elem) :
    ∀ c ∈ elem, isSpace c = false := by
  obtain ⟨m, -, hm, rfl⟩ := h
  rw [List.forall_mem_append, List.forall_mem_append]
  exact ⟨⟨by simp [isSpace], fun c hc => not_space_of_isPathChar (hm c hc)⟩, by simp [isSpace]⟩

/-- A recognised line is one indented word, which ends in `.bst:`. -/
theorem indented_of_failureElem {host : Host} {clean elem : Str}
    (h : failureElem host clean = some elem) : ∃ w, Indented clean (w ++ ".bst:".toList) := by
  obtain ⟨ws, j, tail, rfl, hne, hws, hj, helem, ht⟩ := exists_of_failureElem h
  have hspace := helem.not_space
  obtain ⟨m, -, -, rfl⟩ := helem
  have hword : j ++ ("kde/".toList ++ m) ++ ".bst:".toList =
      j ++ ("kde/".toList ++ m ++ ".bst".toList ++ [':']) := by simp
  have happ : ws ++ j ++ ("kde/".toList ++ m ++ ".bst".toList) ++ ':' :: tail =
      ws ++ (j ++ ("kde/".toList ++ m) ++ ".bst:".toList) ++ tail := by simp
  rw [happ]
  refine ⟨j ++ ("kde/".toList ++ m), indented_append hne hws (by simp) ?_ ht⟩
  rw [hword, List.forall_mem_append, List.forall_mem_append]
  exact ⟨hj.not_space, hspace, by simp [isSpace]⟩

/-- No word of the summary counters ends like that. -/
theorem append_bst_ne (w : Str) {x : Str} (hx : x.reverse.take 2 ≠ [':', 't']) :
    w ++ ".bst:".toList ≠ x := by
  rintro rfl
  exact hx (by simp)

theorem raises_of_failureElem {host : Host} {raw elem : Str}
    (h : failureElem host (cleanLine raw) = some elem) : raises host raw = false := by
  obtain ⟨w, hw⟩ := indented_of_failureElem h
  have htotal := hw.total (append_bst_ne w (by decide)) host.unicode
  have hqueue := hw.queue (append_bst_ne w (by decide)) (append_bst_ne w (by decide)) host.unicode
  simp [raises, totalRefused, queueRefused, htotal, hqueue]

/-! ## The lines of a sub-run -/

theorem applyEvent_summaryElements (host : Host) (clock : Clock) (e : Event) (s : State) :
    (applyEvent host clock e s).summaryElements = s.summaryElements := by
  unfold applyEvent
  dsimp only
  split
  · rfl
  split
  · rfl
  split
  · exact fail_summaryElements _ _ _ _
  split
  · split
    · rfl
    · split <;> rfl
  · rfl

theorem parseRest_summaryElements (host : Host) (clock : Clock) (clean : Str) (s : State) :
    (parseRest host clock clean s).summaryElements = s.summaryElements := by
  unfold parseRest
  split
  · exact applyEvent_summaryElements _ _ _ _
  · split <;> rfl

/-- `_summary_elements` after a line that records `elem?`. -/
def insertElem (elem? : Option Str) (l : List Str) : List Str :=
  match elem? with
  | some elem => l.insert elem
  | none => l

theorem parseFailureBlock_summaryElements (host : Host) (clean : Str) (s : State) :
    (parseFailureBlock host clean s).summaryElements =
      insertElem (failureElem host clean) s.summaryElements := by
  have helem : (match failureElem host clean with
      | some elem => s.update (addFailureElem elem)
      | none => s).summaryElements = insertElem (failureElem host clean) s.summaryElements := by
    split <;> rename_i h <;> rw [h]
    · exact addFailureElem_summaryElements _ _
    · rfl
  unfold parseFailureBlock
  dsimp only
  split
  · exact (setFailLog_frame _ _).2.trans helem
  · exact helem

theorem afterLine_summaryElements {raw : Str} (hh : isHeader raw = false)
    (hs : isSummary raw = false) (host : Host) (clock : Clock) (s : State) :
    (afterLine host clock raw s).summaryElements =
      insertElem (failureElem host (cleanLine raw)) s.summaryElements := by
  have hraises : raises host raw = true → failureElem host (cleanLine raw) = none := by
    intro hr
    cases hf : failureElem host (cleanLine raw) with
    | none => rfl
    | some elem =>
      rw [raises_of_failureElem hf] at hr
      cases hr
  rw [afterLine, parseLine_inner hh hs]
  by_cases hnil : cleanLine raw = []
  · have hnone : failureElem host [] = none := by
      cases hf : failureElem host [] with
      | none => rfl
      | some elem =>
        obtain ⟨w, hw⟩ := indented_of_failureElem hf
        exact absurd rfl hw.ne_nil
    simp only [hnil, if_true, hnone, insertElem]
  · simp only [hnil, if_false]
    rcases parseTotal_spec host (cleanLine raw) s with ⟨ht, he⟩ | ⟨ht, s₁, h₁, hs₁⟩
    · rw [hraises (by simp [raises, hh, hs, ht])]
      simp only [he, bind, Except.bind, insertElem]
    rcases parseQueue_spec host (cleanLine raw) s₁ with ⟨hq, he⟩ | ⟨hq, s₂, h₂, hs₂⟩
    · rw [hraises (by simp [raises, hh, hs, hq])]
      simp only [h₁, he, bind, Except.bind, insertElem, hs₁]
    · simp only [h₁, h₂, bind, Except.bind, pure, Except.pure]
      rw [parseRest_summaryElements, parseFailureBlock_summaryElements, hs₂, hs₁]

/-- Every entry of the ledger is still there, as the same dict with the same element. -/
def Keeps (s t : State) : Prop :=
  ∀ f ∈ s.failures, ∃ f' ∈ t.failures, f'.oid = f.oid ∧ f'.element = f.element

theorem Keeps.of_eq {s t : State} (h : t.failures = s.failures) : Keeps s t :=
  fun f hf => ⟨f, h ▸ hf, rfl, rfl⟩

theorem Keeps.trans {s t u : State} (h₁ : Keeps s t) (h₂ : Keeps t u) : Keeps s u := by
  intro f hf
  obtain ⟨g, hg, ho, he⟩ := h₁ f hf
  obtain ⟨k, hk, ho', he'⟩ := h₂ g hg
  exact ⟨k, hk, ho'.trans ho, he'.trans he⟩

theorem keeps_setFailLog (path : Str) (s : State) : Keeps s (setFailLog path s) := by
  intro f hf
  have hmap : (setFailLog path s).failures.map (fun f => (f.oid, f.element)) =
      s.failures.map fun f => (f.oid, f.element) := map_setFailLog (fun _ => rfl) s
  have hmem : (f.oid, f.element) ∈ s.failures.map fun f => (f.oid, f.element) :=
    List.mem_map_of_mem hf
  rw [← hmap] at hmem
  obtain ⟨f', hf', heq⟩ := List.mem_map.mp hmem
  exact ⟨f', hf', congrArg Prod.fst heq, congrArg Prod.snd heq⟩

theorem keeps_recordFailure (item : Item) (s : State) : Keeps s (recordFailure item s) := by
  intro f hf
  unfold recordFailure
  split
  · exact ⟨f, hf, rfl, rfl⟩
  · split
    · simp only [State.writeThrough]
      rcases Dict.mem_modifyFirst_of_mem (p := Item.isPlaceholder item.element)
        (g := item.overwrite) hf with hmem | ⟨hp, hmem⟩
      · exact ⟨f, hmem, rfl, rfl⟩
      · simp only [Item.isPlaceholder, Bool.and_eq_true, decide_eq_true_eq] at hp
        exact ⟨_, hmem, rfl, hp.1.symm⟩
    · exact ⟨f, List.mem_append_left _ hf, rfl, rfl⟩

theorem keeps_inner {host : Host} {clean : Str} {s t : State} (h : Inner host clean s t) :
    Keeps s t := by
  cases h with
  | queue n =>
    refine .of_eq ?_
    simp only [State.update, backfillFailures]
    split <;> rfl
  | listed elem =>
    intro f hf
    refine ⟨f, ?_, rfl, rfl⟩
    simp only [State.update, addFailureElem]
    split
    · exact hf
    · exact List.mem_append_left _ hf
  | failLog path => exact keeps_setFailLog path s
  | fail clock e =>
    simp only [State.update, fail]
    split
    · exact .of_eq rfl
    · exact fun f hf => keeps_recordFailure _ _ f hf
  | total | recent | start | done | skipPull | pull => exact .of_eq rfl

/-! ## Whole logs -/

/-- A line of the log with the clock readings of its `parse_line` call. -/
abbrev Line := Clock × Str

def runLines (host : Host) (ls : List Line) (s : State) : State :=
  ls.foldl (fun s l => afterLine host l.1 l.2 s) s

theorem runLines_append (host : Host) (ls ms : List Line) (s : State) :
    runLines host (ls ++ ms) s = runLines host ms (runLines host ls s) :=
  List.foldl_append

/-- The lines start no build and end no sub-run. -/
def SubRun (ls : List Line) : Prop := ∀ l ∈ ls, isHeader l.2 = false ∧ isSummary l.2 = false

/-- A sub-run starts behind these lines: at the start of the log, behind a header or
behind a Pipeline Summary. -/
def EndsSubRun (ls : List Line) : Prop :=
  ls = [] ∨ ∃ ms l, ls = ms ++ [l] ∧ (isHeader l.2 ∨ isSummary l.2)

theorem summaryElements_start {host : Host} {past : List Line} (h : EndsSubRun past) :
    (runLines host past {}).summaryElements = [] := by
  rcases h with rfl | ⟨ms, l, rfl, hl | hl⟩
  · rfl
  · obtain ⟨ts, hts⟩ := afterLine_header hl host l.1 (runLines host ms {})
    rw [runLines_append]
    change (afterLine host l.1 l.2 (runLines host ms {})).summaryElements = []
    rw [hts]
    rfl
  · rw [runLines_append]
    change (afterLine host l.1 l.2 (runLines host ms {})).summaryElements = []
    rw [afterLine_summary hl]
    rfl

theorem runLines_subRun {host : Host} {ls : List Line} (h : SubRun ls) (s : State) :
    Keeps s (runLines host ls s) ∧
      ∀ e, e ∈ (runLines host ls s).summaryElements ↔
        e ∈ s.summaryElements ∨ ∃ l ∈ ls, failureElem host (cleanLine l.2) = some e := by
  induction ls generalizing s with
  | nil => exact ⟨.of_eq rfl, by simp [runLines]⟩
  | cons l ls ih =>
    obtain ⟨hh, hs⟩ := h l List.mem_cons_self
    obtain ⟨hkeep, hmem⟩ := ih (fun m hm => h m (List.mem_cons_of_mem _ hm))
      (afterLine host l.1 l.2 s)
    constructor
    · refine Keeps.trans ?_ hkeep
      have hin := afterLine_inner hh hs host l.1 s
      generalize afterLine host l.1 l.2 s = t at hin
      induction hin with
      | refl => exact .of_eq rfl
      | tail _ hab ih => exact ih.trans (keeps_inner hab)
    · intro e
      change e ∈ (runLines host ls (afterLine host l.1 l.2 s)).summaryElements ↔ _
      rw [hmem, afterLine_summaryElements hh hs]
      simp only [List.exists_mem_cons_iff]
      cases failureElem host (cleanLine l.2) with
      | none => simp [insertElem]
      | some elem =>
        simp only [insertElem, List.mem_insert_iff, Option.some.injEq]
        rw [eq_comm, or_assoc, or_left_comm]

/-- The line puts the entry `f` into `failures` as a live FAILURE event. -/
def LiveFailure (host : Host) (s : State) (l : Line) (f : Item) : Prop :=
  f ∈ (afterLine host l.1 l.2 s).failures ∧ f ∉ s.failures ∧
    ∃ e, event? host (cleanLine l.2) = some e ∧ e.action = "build".toList ∧
      e.status = "FAILURE".toList ∧ e.short = f.element ∧ e.hash = f.hash

/-- The line is an element line of a Failure Summary: `[junction.bst:]<path>.bst:`,
indented. -/
def NamesElement (raw elem : Str) : Prop :=
  ∃ ws junction, ws ≠ [] ∧ (∀ c ∈ ws, c = ' ') ∧
    (junction = [] ∨ ∃ w, junction = w ++ ".bst:".toList) ∧ ".bst".toList <:+ elem ∧
    raw = ws ++ junction ++ elem ++ [':']

/-- **Root causes.** A failure recorded in a sub-run survives its Pipeline Summary if and
only if `FAILURE_ELEM_RE` recognised no line of the sub-run, or a line of the failure's own
element; and it recognises the elements below `kde/` only. -/
theorem root_cause_kept_iff (host : Host) (past before after : List Line) (summary : Line)
    (hpast : EndsSubRun past) (hsub : SubRun (before ++ after))
    (hsummary : isSummary summary.2) (f : Item)
    (hf : f ∈ (runLines host (past ++ before) {}).failures) :
    ((∃ f' ∈ (runLines host (past ++ before ++ after ++ [summary]) {}).failures,
        f'.oid = f.oid ∧ f'.element = f.element) ↔
      (∀ l ∈ before ++ after, failureElem host (cleanLine l.2) = none) ∨
        ∃ l ∈ before ++ after, failureElem host (cleanLine l.2) = some f.element) ∧
    ∀ l ∈ before ++ after, ∀ e, failureElem host (cleanLine l.2) = some e →
      KdeElement host.unicode e := by
  refine ⟨?_, fun l _ e he => failureElem_kde he⟩
  have hafter : SubRun after := fun l hl => hsub l (List.mem_append_right _ hl)
  obtain ⟨g, hg, hgo, hge⟩ :=
    (runLines_subRun hafter (runLines host (past ++ before) {})).1 f hf
  have hlisted := (@runLines_subRun host _ hsub (runLines host past {})).2
  rw [← runLines_append, ← List.append_assoc] at hlisted
  rw [← runLines_append] at hg
  simp only [summaryElements_start hpast, List.not_mem_nil, false_or] at hlisted
  generalize ht : runLines host (past ++ before ++ after) {} = t at hg hlisted
  have hend : runLines host (past ++ before ++ after ++ [summary]) {} =
      t.update (pipelineDone summary.1.first (cleanLine summary.2)) := by
    rw [runLines_append, ht]
    exact afterLine_summary hsummary host summary.1 t
  rw [hend]
  simp only [State.update, pipelineDone]
  by_cases hnil : t.summaryElements = []
  · have hnone : ∀ l ∈ before ++ after, failureElem host (cleanLine l.2) = none := by
      intro l hl
      by_contra hn
      obtain ⟨e, he⟩ := Option.ne_none_iff_exists'.mp hn
      have := (hlisted e).mpr ⟨l, hl, he⟩
      simp [hnil] at this
    simp only [hnil, ne_eq, not_true_eq_false, if_false]
    exact ⟨fun _ => .inl hnone, fun _ => ⟨g, hg, hgo, hge⟩⟩
  · simp only [hnil, ne_eq, not_false_eq_true, if_true, List.mem_filter, decide_eq_true_eq]
    constructor
    · rintro ⟨f', ⟨-, hf'⟩, -, hfe⟩
      exact .inr ((hlisted f.element).mp (hfe ▸ hf'))
    · rintro (hnone | hsome)
      · obtain ⟨e, he⟩ := List.exists_mem_of_ne_nil _ hnil
        obtain ⟨l, hl, hle⟩ := (hlisted e).mp he
        rw [hnone l hl] at hle
        cases hle
      · exact ⟨g, ⟨hg, hge ▸ (hlisted f.element).mpr hsome⟩, hgo, hge⟩

/-- A build of `xfce-linux/session.bst` starts. -/
def sessionStart : Line :=
  (⟨0, 0⟩, "[00:00:01][abcdef][build:xfce-linux/session.bst] START   xfce/abcdef-build.log".toList)

/-- It fails. -/
def sessionFailure : Line :=
  (⟨0, 0⟩, "[00:00:09][abcdef][build:xfce-linux/session.bst] FAILURE Command failed".toList)

/-- The Failure Summary lists it. -/
def sessionListed : Line := (⟨0, 0⟩, "    xfce-linux/session.bst:".toList)

/-- The Failure Summary, with a `kde/` element in front. -/
def sessionSummary : List Line :=
  [(⟨0, 0⟩, "    kde-build-meta.bst:kde/plasma/kwin.bst:".toList), sessionListed]

def pipelineSummary : Line := (⟨0, 0⟩, "Pipeline Summary".toList)

/-- The entry of the failed build. -/
def sessionItem : Item where
  element := "xfce-linux/session.bst".toList
  hash := "abcdef".toList
  duration := 0
  status := .failure
  log := some "/root/.cache/buildstream/logs/xfce/abcdef-build.log".toList
  oid := 0

theorem session_subRun : SubRun ([sessionStart, sessionFailure] ++ sessionSummary) := by
  unfold SubRun
  decide +kernel

theorem session_recorded :
    (runLines Host.root [sessionStart, sessionFailure] {}).failures = [sessionItem] := by
  decide +kernel

theorem root_cause_kept_iff_session :
    (∃ f' ∈ (runLines Host.root
        ([] ++ [sessionStart, sessionFailure] ++ sessionSummary ++ [pipelineSummary]) {}).failures,
      f'.oid = sessionItem.oid ∧ f'.element = sessionItem.element) ↔
    (∀ l ∈ [sessionStart, sessionFailure] ++ sessionSummary,
      failureElem Host.root (cleanLine l.2) = none) ∨
    ∃ l ∈ [sessionStart, sessionFailure] ++ sessionSummary,
      failureElem Host.root (cleanLine l.2) = some sessionItem.element :=
  (root_cause_kept_iff Host.root [] [sessionStart, sessionFailure] sessionSummary pipelineSummary
    (.inl rfl) session_subRun (by decide +kernel) sessionItem
    (by rw [List.nil_append, session_recorded]; exact List.mem_singleton.mpr rfl)).1

/-- The listed failure of `xfce-linux/session.bst` is dropped. -/
theorem listed_root_cause_dropped :
    ¬ ∀ (host : Host) (past before after : List Line) (failure summary : Line) (f : Item),
      EndsSubRun past → SubRun (before ++ [failure] ++ after) → isSummary summary.2 →
      LiveFailure host (runLines host (past ++ before) {}) failure f →
      (∃ l ∈ before ++ [failure] ++ after, NamesElement l.2 f.element) →
      ∃ f' ∈ (runLines host (past ++ before ++ [failure] ++ after ++ [summary]) {}).failures,
        f'.oid = f.oid ∧ f'.element = f.element := by
  intro h
  have hlive : LiveFailure Host.root (runLines Host.root [sessionStart] {}) sessionFailure
      sessionItem := by
    refine ⟨?_, by decide +kernel,
      ⟨"FAILURE".toList, "build".toList, "xfce-linux/session.bst".toList, "abcdef".toList,
        "Command failed".toList, false⟩, by decide +kernel, rfl, rfl, rfl, rfl⟩
    have hrec := session_recorded
    rw [← List.singleton_append, runLines_append] at hrec
    exact hrec ▸ List.mem_singleton.mpr rfl
  have hnames : NamesElement sessionListed.2 sessionItem.element :=
    ⟨"    ".toList, [], by decide +kernel, by simp, .inl rfl, by decide +kernel,
      by decide +kernel⟩
  obtain ⟨f', hf', -, he⟩ := h Host.root [] [sessionStart] sessionSummary sessionFailure
    pipelineSummary sessionItem (.inl rfl) session_subRun (by decide +kernel) hlive
    ⟨sessionListed, List.mem_append_right _ (by simp [sessionSummary]), hnames⟩
  revert f'
  decide +kernel

end XfceLinux.Dashboard
