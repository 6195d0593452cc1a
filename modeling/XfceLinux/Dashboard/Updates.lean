import XfceLinux.Dashboard.Parser

/-!
# What one call of `parse_line` can do

A line is a build header (`afterLine_header`), a Pipeline Summary line
(`afterLine_summary`), or it makes updates of the kinds listed by `Inner`, in some number
(`afterLine_inner`). A call that raises has made no other updates. Runs of calls are
`runCalls`; an invariant of all runs needs one proof for each kind of update
(`reachable_invariant`).
-/

namespace XfceLinux.Dashboard

open Lib Lib.Text Lib.Regex Relation

/-- The line is a build header. -/
def isHeader (raw : Str) : Bool := (search buildHeaderRe (cleanLine raw)).isSome

/-- The line ends a sub-run. -/
def isSummary (raw : Str) : Bool :=
  !isHeader raw && (matchStart pipelineSummaryRe (cleanLine raw)).isSome

/-- The updates of the state that a line with the text `clean` makes when it is neither a
header nor a Pipeline Summary. -/
inductive Inner (host : Host) (clean : Str) (s : State) : State → Prop
  | total (n : Nat) : Inner host clean s (s.update (setTotal n))
  | queue (n : Nat) : Inner host clean s (s.update (backfillFailures n))
  | listed (elem : Str) (h : failureElem host clean = some elem) :
      Inner host clean s (s.update (addFailureElem elem))
  | failLog (path : Str) (h : failureLog host clean = some path) :
      Inner host clean s (s.update (setFailLog path))
  | recent (line : Str) : Inner host clean s (s.update (addRecent line))
  | start (clock : Clock) (e : Event) (h : event? host clean = some e)
      (hbuild : e.action = "build".toList) (htop : e.isTop)
      (hstatus : e.status = "START".toList) :
      Inner host clean s (s.update (start e.short e.hash (e.hostLog host) clock.first))
  | done (clock : Clock) (e : Event) (h : event? host clean = some e)
      (hbuild : e.action = "build".toList) (htop : e.isTop)
      (hstatus : e.status = "SUCCESS".toList) :
      Inner host clean s (s.update (done e.short e.hash clock))
  | fail (clock : Clock) (e : Event) (h : event? host clean = some e)
      (hbuild : e.action = "build".toList) (hstatus : e.status = "FAILURE".toList) :
      Inner host clean s (s.update (fail e.short e.hash clock))
  | skipPull : Inner host clean s (s.update skipPull)
  | pull : Inner host clean s (s.update pull)

/-- Any number of updates by one line. -/
abbrev Inners (host : Host) (clean : Str) : State → State → Prop :=
  ReflTransGen (Inner host clean)

theorem inners_applyEvent {host : Host} {clean : Str} {e : Event}
    (h : event? host clean = some e) (clock : Clock) (s : State) :
    Inners host clean s (applyEvent host clock e s) := by
  have hrecent : Inners host clean s (s.update (addRecent e.recent)) :=
    .single (.recent e.recent)
  unfold applyEvent
  dsimp only
  split
  · rename_i hc
    exact hrecent.tail (.start clock e h hc.1 hc.2.1 hc.2.2)
  split
  · rename_i hc
    exact hrecent.tail (.done clock e h hc.1 hc.2.1 hc.2.2)
  split
  · rename_i hc
    exact hrecent.tail (.fail clock e h hc.1 hc.2)
  split
  · split
    · exact hrecent.tail .skipPull
    · split
      · exact hrecent.tail .pull
      · exact hrecent
  · exact hrecent

theorem inners_parseRest (host : Host) (clock : Clock) (clean : Str) (s : State) :
    Inners host clean s (parseRest host clock clean s) := by
  unfold parseRest
  split
  · exact inners_applyEvent ‹_› clock s
  · split
    · exact .refl
    · exact .single (.recent _)

theorem inners_parseFailureBlock (host : Host) (clean : Str) (s : State) :
    Inners host clean s (parseFailureBlock host clean s) := by
  unfold parseFailureBlock
  cases he : failureElem host clean with
  | none =>
    cases hl : failureLog host clean with
    | none => exact .refl
    | some path => exact .single (.failLog path hl)
  | some elem =>
    have helem : Inners host clean s (s.update (addFailureElem elem)) := .single (.listed elem he)
    cases hl : failureLog host clean with
    | none => exact helem
    | some path => exact helem.tail (.failLog path hl)

theorem inners_parseTotal {host : Host} {clean : Str} {s t : State}
    (h : parseTotal host clean s = .ok t) : Inners host clean s t := by
  unfold parseTotal at h
  split at h
  · cases h
    exact .refl
  · split at h <;> cases h
    exact .single (.total _)

theorem inners_parseQueue {host : Host} {clean : Str} {s t : State}
    (h : parseQueue host clean s = .ok t) : Inners host clean s t := by
  unfold parseQueue at h
  split at h
  · cases h
    exact .refl
  · split at h
    · split at h <;> cases h
      exact .single (.queue _)
    · cases h
      exact .refl

theorem parseTotal_error {host : Host} {clean : Str} {s t : State}
    (h : parseTotal host clean s = .error t) : t = s := by
  unfold parseTotal at h
  split at h
  · cases h
  · split at h <;> cases h
    rfl

theorem parseQueue_error {host : Host} {clean : Str} {s t : State}
    (h : parseQueue host clean s = .error t) : t = s := by
  unfold parseQueue at h
  split at h
  · cases h
  · split at h
    · split at h <;> cases h
      rfl
    · cases h

theorem isHeader_ne_nil {raw : Str} (h : isHeader raw) : cleanLine raw ≠ [] := by
  intro hc
  rw [isHeader, hc] at h
  exact absurd h (by decide)

theorem isSummary_ne_nil {raw : Str} (h : isSummary raw) : cleanLine raw ≠ [] := by
  intro hc
  rw [isSummary, isHeader, hc] at h
  exact absurd h (by decide)

theorem parseLine_header {raw : Str} (h : isHeader raw) (host : Host) (clock : Clock)
    (s : State) :
    ∃ ts, parseLine host clock raw s = .ok (s.update (setStart ts (cleanLine raw))) := by
  obtain ⟨hm, hhm⟩ := Option.isSome_iff_exists.mp h
  refine ⟨headerTime host clock (hm.group 1), ?_⟩
  simp only [parseLine, isHeader_ne_nil h, hhm, if_false]

theorem parseLine_summary {raw : Str} (h : isSummary raw) (host : Host) (clock : Clock)
    (s : State) :
    parseLine host clock raw s = .ok (s.update (pipelineDone clock.first (cleanLine raw))) := by
  have hne := isSummary_ne_nil h
  simp only [isSummary, isHeader, Bool.and_eq_true, Bool.not_eq_true', Option.isSome_eq_false_iff,
    Option.isNone_iff_eq_none] at h
  simp only [parseLine, hne, h.1, h.2, if_false, if_true]

theorem afterLine_header {raw : Str} (h : isHeader raw) (host : Host) (clock : Clock)
    (s : State) : ∃ ts, afterLine host clock raw s = s.update (setStart ts (cleanLine raw)) := by
  obtain ⟨ts, hts⟩ := parseLine_header h host clock s
  exact ⟨ts, by rw [afterLine, hts]⟩

theorem afterLine_summary {raw : Str} (h : isSummary raw) (host : Host) (clock : Clock)
    (s : State) :
    afterLine host clock raw s = s.update (pipelineDone clock.first (cleanLine raw)) := by
  rw [afterLine, parseLine_summary h]

theorem parseLine_inner {raw : Str} (hh : isHeader raw = false) (hs : isSummary raw = false)
    (host : Host) (clock : Clock) (s : State) :
    parseLine host clock raw s =
      if cleanLine raw = [] then .ok s
      else do
        let s ← parseTotal host (cleanLine raw) s
        let s ← parseQueue host (cleanLine raw) s
        return parseRest host clock (cleanLine raw)
          (parseFailureBlock host (cleanLine raw) s) := by
  have hm : matchStart pipelineSummaryRe (cleanLine raw) = none := by
    simpa [isSummary, hh] using hs
  have hsearch : search buildHeaderRe (cleanLine raw) = none := by simpa [isHeader] using hh
  simp only [parseLine, hm, hsearch, Option.isSome_none, Bool.false_eq_true, if_false]

theorem afterLine_inner {raw : Str} (hh : isHeader raw = false) (hs : isSummary raw = false)
    (host : Host) (clock : Clock) (s : State) :
    Inners host (cleanLine raw) s (afterLine host clock raw s) := by
  rw [afterLine, parseLine_inner hh hs]
  split
  · rename_i t ht
    split at ht
    · cases ht
      exact .refl
    · cases h₁ : parseTotal host (cleanLine raw) s with
      | error u => simp [h₁, bind, Except.bind] at ht
      | ok s₁ =>
        cases h₂ : parseQueue host (cleanLine raw) s₁ with
        | error u => simp [h₁, h₂, bind, Except.bind] at ht
        | ok s₂ =>
          simp only [h₁, h₂, bind, Except.bind, pure, Except.pure, Except.ok.injEq] at ht
          subst ht
          exact (inners_parseTotal h₁).trans <| (inners_parseQueue h₂).trans <|
            (inners_parseFailureBlock host _ s₂).trans <| inners_parseRest host clock _ _
  · rename_i t ht
    split at ht
    · cases ht
    · cases h₁ : parseTotal host (cleanLine raw) s with
      | error u =>
        simp only [h₁, bind, Except.bind, Except.error.injEq] at ht
        subst ht
        exact parseTotal_error h₁ ▸ .refl
      | ok s₁ =>
        cases h₂ : parseQueue host (cleanLine raw) s₁ with
        | error u =>
          simp only [h₁, h₂, bind, Except.bind, Except.error.injEq] at ht
          subst ht
          exact parseQueue_error h₂ ▸ inners_parseTotal h₁
        | ok s₂ => simp [h₁, h₂, bind, Except.bind, pure, Except.pure] at ht

/-! ## What the updates leave alone -/

theorem setFailLog_frame (path : Str) (s : State) :
    (setFailLog path s).failureCount = s.failureCount ∧
      (setFailLog path s).summaryElements = s.summaryElements := by
  unfold setFailLog
  split <;> exact ⟨rfl, rfl⟩

theorem map_setFailLog {α : Type*} {k : Item → α} {path : Str}
    (hk : ∀ f : Item, k (f.setLog path) = k f) (s : State) :
    (setFailLog path s).failures.map k = s.failures.map k := by
  unfold setFailLog
  split
  · rfl
  · simp only [State.writeThrough, List.map_reverse]
    rw [Dict.map_modifyFirst hk, ← List.map_reverse, List.reverse_reverse]

theorem recordFailure_summaryElements (item : Item) (s : State) :
    (recordFailure item s).summaryElements = s.summaryElements := by
  unfold recordFailure
  split
  · rfl
  · split <;> rfl

theorem fail_summaryElements (element hash : Str) (clock : Clock) (s : State) :
    (fail element hash clock s).summaryElements = s.summaryElements := by
  unfold fail
  split
  · rfl
  · exact recordFailure_summaryElements _ _

theorem addFailureElem_summaryElements (elem : Str) (s : State) :
    (addFailureElem elem s).summaryElements = s.summaryElements.insert elem := by
  unfold addFailureElem
  dsimp only
  split <;> rfl

/-! ## Calls that raise -/

/-- `SUMMARY_TOTAL_RE` finds a number that `int` refuses. -/
def totalRefused (host : Host) (clean : Str) : Bool :=
  (matchStart (summaryTotalRe host.unicode) clean).any fun tm =>
    (parseInt host.unicode (tm.group 1)).isNone

/-- `SUMMARY_QUEUE_RE` finds a number of failed builds that `int` refuses. -/
def queueRefused (host : Host) (clean : Str) : Bool :=
  (matchStart (summaryQueueRe host.unicode) clean).any fun qm =>
    qm.group 1 = "Build".toList && (parseInt host.unicode (qm.group 4)).isNone

/-- `parse_line` leaves this line by an exception. -/
def raises (host : Host) (raw : Str) : Bool :=
  !isHeader raw && !isSummary raw &&
    (totalRefused host (cleanLine raw) || queueRefused host (cleanLine raw))

theorem parseTotal_spec (host : Host) (clean : Str) (s : State) :
    (totalRefused host clean = true ∧ parseTotal host clean s = .error s) ∨
      totalRefused host clean = false ∧ ∃ t, parseTotal host clean s = .ok t ∧
        t.summaryElements = s.summaryElements := by
  unfold parseTotal totalRefused
  split
  · rename_i h
    exact .inr ⟨by simp [h], s, rfl, rfl⟩
  · rename_i tm h
    split
    · rename_i hn
      exact .inl ⟨by simp [h, hn], rfl⟩
    · rename_i n hn
      exact .inr ⟨by simp [h, hn], _, rfl, rfl⟩

theorem parseQueue_spec (host : Host) (clean : Str) (s : State) :
    (queueRefused host clean = true ∧ parseQueue host clean s = .error s) ∨
      queueRefused host clean = false ∧ ∃ t, parseQueue host clean s = .ok t ∧
        t.summaryElements = s.summaryElements := by
  unfold parseQueue queueRefused
  split
  · rename_i h
    exact .inr ⟨by simp [h], s, rfl, rfl⟩
  · rename_i qm h
    split
    · rename_i hb
      split
      · rename_i hn
        exact .inl ⟨by simp [h, hb, hn], rfl⟩
      · rename_i n hn
        refine .inr ⟨by simp [h, hb, hn], _, rfl, ?_⟩
        simp only [State.update, backfillFailures]
        split <;> rfl
    · rename_i hb
      exact .inr ⟨by simp only [h, Option.any_some, hb, decide_false, Bool.false_and], s, rfl, rfl⟩

theorem raises_nil {host : Host} {raw : Str} (h : cleanLine raw = []) :
    raises host raw = false := by
  have ht : totalRefused host [] = false := rfl
  have hq : queueRefused host [] = false := rfl
  simp [raises, h, ht, hq]

theorem parseLine_of_raises {host : Host} {raw : Str} (h : raises host raw) (clock : Clock)
    (s : State) : ∃ t, parseLine host clock raw s = .error t := by
  have hne : cleanLine raw ≠ [] := fun hnil => by simp [raises_nil hnil] at h
  simp only [raises, Bool.and_eq_true, Bool.not_eq_true', Bool.or_eq_true] at h
  obtain ⟨⟨hh, hs⟩, hr⟩ := h
  rw [parseLine_inner hh hs, if_neg hne]
  rcases parseTotal_spec host (cleanLine raw) s with ⟨-, he⟩ | ⟨hf, t, ht, -⟩
  · exact ⟨s, by rw [he]; rfl⟩
  · rcases parseQueue_spec host (cleanLine raw) t with ⟨-, he⟩ | ⟨hf', -⟩
    · exact ⟨t, by rw [ht]; change parseQueue host _ t >>= _ = _; rw [he]; rfl⟩
    · simp [hf, hf'] at hr

theorem parseLine_of_not_raises {host : Host} {raw : Str} (h : raises host raw = false)
    (clock : Clock) (s : State) : ∃ t, parseLine host clock raw s = .ok t := by
  cases hh : isHeader raw with
  | true =>
    obtain ⟨ts, hts⟩ := parseLine_header hh host clock s
    exact ⟨_, hts⟩
  | false =>
    cases hs : isSummary raw with
    | true => exact ⟨_, parseLine_summary hs host clock s⟩
    | false =>
      simp only [raises, hh, hs, Bool.not_false, Bool.true_and, Bool.or_eq_false_iff] at h
      rw [parseLine_inner hh hs]
      split
      · exact ⟨s, rfl⟩
      rcases parseTotal_spec host (cleanLine raw) s with ⟨hr, -⟩ | ⟨-, t, ht, -⟩
      · simp [h.1] at hr
      rcases parseQueue_spec host (cleanLine raw) t with ⟨hr, -⟩ | ⟨-, u, hu, -⟩
      · simp [h.2] at hr
      · exact ⟨_, by rw [ht]; change parseQueue host _ t >>= _ = _; rw [hu]; rfl⟩

/-! ## Runs -/

/-- A call that changes the build state. -/
inductive Call where
  | line (clock : Clock) (raw : Str)
  | reset

def Call.apply (host : Host) : Call → State → State
  | .line clock raw, s => afterLine host clock raw s
  | .reset, s => resetState s

/-- The state after a sequence of calls. -/
def runCalls (host : Host) (cs : List Call) (s : State) : State :=
  cs.foldl (fun s c => c.apply host s) s

/-- The states that calls reach from a fresh `State`. -/
def Reachable (host : Host) (s : State) : Prop := ∃ cs, s = runCalls host cs {}

@[simp] theorem runCalls_nil (host : Host) (s : State) : runCalls host [] s = s := rfl

@[simp] theorem runCalls_cons (host : Host) (c : Call) (cs : List Call) (s : State) :
    runCalls host (c :: cs) s = runCalls host cs (c.apply host s) := rfl

theorem runCalls_append (host : Host) (cs ds : List Call) (s : State) :
    runCalls host (cs ++ ds) s = runCalls host ds (runCalls host cs s) :=
  List.foldl_append

/-- What every kind of update keeps holds after every call. -/
theorem apply_invariant {host : Host} {P : State → Prop}
    (hreset : ∀ s, P s → P (resetState s))
    (hheader : ∀ ts clean s, P s → P (s.update (setStart ts clean)))
    (hsummary : ∀ time clean s, P s → P (s.update (pipelineDone time clean)))
    (hinner : ∀ clean s t, P s → Inner host clean s t → P t) (c : Call) {s : State}
    (h : P s) : P (c.apply host s) := by
  cases c with
  | reset => exact hreset s h
  | line clock raw =>
    simp only [Call.apply]
    cases hh : isHeader raw with
    | true =>
      obtain ⟨ts, hts⟩ := afterLine_header hh host clock s
      rw [hts]
      exact hheader ts _ s h
    | false =>
      cases hs : isSummary raw with
      | true =>
        rw [afterLine_summary hs]
        exact hsummary _ _ s h
      | false =>
        have hin := afterLine_inner hh hs host clock s
        generalize afterLine host clock raw s = t at hin
        induction hin with
        | refl => exact h
        | tail _ hab ih => exact hinner _ _ _ ih hab

/-- The invariant rule for runs of calls from a fresh `State`. -/
theorem reachable_invariant {host : Host} {P : State → Prop} (hinit : P {})
    (hreset : ∀ s, P s → P (resetState s))
    (hheader : ∀ ts clean s, P s → P (s.update (setStart ts clean)))
    (hsummary : ∀ time clean s, P s → P (s.update (pipelineDone time clean)))
    (hinner : ∀ clean s t, P s → Inner host clean s t → P t) {s : State}
    (h : Reachable host s) : P s := by
  obtain ⟨cs, rfl⟩ := h
  induction cs using List.reverseRecOn with
  | nil => exact hinit
  | append_singleton cs c ih =>
    rw [runCalls_append]
    exact apply_invariant hreset hheader hsummary hinner c ih

/-- The account `root`, on an interpreter that knows no character beyond ASCII and no
date. -/
def Host.root : Host where
  unicode := .ascii
  home := "/root".toList
  strptime _ := none

end XfceLinux.Dashboard
