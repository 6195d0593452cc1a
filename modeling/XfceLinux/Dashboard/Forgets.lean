import XfceLinux.Dashboard.Updates

/-!
# A new build forgets the log before it

A header or a reset leaves of the state only `total_elements`, the version and the identities
given out, and no update looks at these. What the dashboard shows behind a header is therefore
what a fresh dashboard with the same `total_elements` shows of the same lines
(`header_forgets`).
-/

namespace XfceLinux.Dashboard

open Lib Lib.Text

/-! ## Symmetries of the parser -/

/-- The functions that `parse_line` and `reset_state` pass to `State.update`. -/
inductive Updates : (State → State) → Prop
  | header (ts : ℚ) (clean : Str) : Updates (setStart ts clean)
  | summary (time : ℚ) (clean : Str) : Updates (pipelineDone time clean)
  | total (n : Nat) : Updates (setTotal n)
  | queue (n : Nat) : Updates (backfillFailures n)
  | listed (elem : Str) : Updates (addFailureElem elem)
  | failLog (path : Str) : Updates (setFailLog path)
  | recent (line : Str) : Updates (addRecent line)
  | start (element hash log : Str) (time : ℚ) : Updates (start element hash log time)
  | done (element hash : Str) (clock : Clock) : Updates (done element hash clock)
  | fail (element hash : Str) (clock : Clock) : Updates (fail element hash clock)
  | skipPull : Updates skipPull
  | pull : Updates pull

/-- A change of the state that every update may come before or after. -/
structure Symmetry (g : State → State) : Prop where
  update : ∀ {fn}, Updates fn → ∀ s, (g s).update fn = g (s.update fn)
  reset : ∀ s, resetState (g s) = g (resetState s)

/-- `g` on the state of a call that returns or raises. -/
def eachResult (g : State → State) : Except State State → Except State State
  | .ok s => .ok (g s)
  | .error s => .error (g s)

namespace Symmetry

variable {g : State → State} (h : Symmetry g)

include h

theorem applyEvent (host : Host) (clock : Clock) (e : Event) (s : State) :
    applyEvent host clock e (g s) = g (applyEvent host clock e s) := by
  unfold Dashboard.applyEvent
  simp only [h.update (.recent _), h.update (.start _ _ _ _), h.update (.done _ _ _),
    h.update (.fail _ _ _), h.update .skipPull, h.update .pull]
  split_ifs <;> rfl

theorem parseRest (host : Host) (clock : Clock) (clean : Str) (s : State) :
    parseRest host clock clean (g s) = g (parseRest host clock clean s) := by
  unfold Dashboard.parseRest
  cases event? host clean with
  | some e => exact h.applyEvent host clock e s
  | none =>
    dsimp only
    split
    · rfl
    · exact h.update (.recent _) s

theorem parseFailureBlock (host : Host) (clean : Str) (s : State) :
    parseFailureBlock host clean (g s) = g (parseFailureBlock host clean s) := by
  unfold Dashboard.parseFailureBlock
  cases failureElem host clean <;> cases failureLog host clean <;>
    simp only [h.update (.listed _), h.update (.failLog _)]

theorem parseTotal (host : Host) (clean : Str) (s : State) :
    parseTotal host clean (g s) = eachResult g (parseTotal host clean s) := by
  unfold Dashboard.parseTotal
  split
  · rfl
  · split
    · rfl
    · rw [h.update (.total _)]
      rfl

theorem parseQueue (host : Host) (clean : Str) (s : State) :
    parseQueue host clean (g s) = eachResult g (parseQueue host clean s) := by
  unfold Dashboard.parseQueue
  split
  · rfl
  · split
    · split
      · rfl
      · rw [h.update (.queue _)]
        rfl
    · rfl

theorem parseLine (host : Host) (clock : Clock) (raw : Str) (s : State) :
    parseLine host clock raw (g s) = eachResult g (parseLine host clock raw s) := by
  unfold Dashboard.parseLine
  dsimp only
  split
  · rfl
  · split
    · rw [h.update (.header _ _)]
      rfl
    · split
      · rw [h.update (.summary _ _)]
        rfl
      · rw [h.parseTotal]
        cases Dashboard.parseTotal host (cleanLine raw) s with
        | error t => rfl
        | ok t =>
          change (Dashboard.parseQueue host (cleanLine raw) (g t) >>= _) = eachResult g
            (Dashboard.parseQueue host (cleanLine raw) t >>= _)
          rw [h.parseQueue]
          cases Dashboard.parseQueue host (cleanLine raw) t with
          | error u => rfl
          | ok u =>
            change Except.ok (Dashboard.parseRest _ _ _ (Dashboard.parseFailureBlock _ _ (g u))) =
              Except.ok (g (Dashboard.parseRest _ _ _ (Dashboard.parseFailureBlock _ _ u)))
            rw [h.parseFailureBlock, h.parseRest]

theorem apply (host : Host) (c : Call) (s : State) : c.apply host (g s) = g (c.apply host s) := by
  cases c with
  | reset => exact h.reset s
  | line clock raw =>
    simp only [Call.apply, afterLine, h.parseLine]
    cases Dashboard.parseLine host clock raw s <;> rfl

theorem runCalls (host : Host) (cs : List Call) (s : State) :
    runCalls host cs (g s) = g (runCalls host cs s) := by
  induction cs generalizing s with
  | nil => rfl
  | cons c cs ih => rw [runCalls_cons, h.apply, ih, runCalls_cons]

end Symmetry

/-! ## Renumbering -/

def Item.renumber (oids : Nat) (f : Item) : Item := { f with oid := oids + f.oid }

/-- The state when more identities had been given out before, and more updates made. -/
def State.renumber (oids updates : Nat) (s : State) : State :=
  { s with
    completed := s.completed.map (Item.renumber oids)
    failures := s.failures.map (Item.renumber oids)
    nextOid := oids + s.nextOid
    version := updates + s.version }

section Renumber

variable (oids updates : Nat)

theorem update_renumber {fn : State → State} {s : State}
    (h : fn (s.renumber oids updates) = (fn s).renumber oids updates) :
    (s.renumber oids updates).update fn = (s.update fn).renumber oids updates := by
  rw [State.update, h]
  rfl

theorem pipelineDone_renumber (time : ℚ) (clean : Str) (s : State) :
    pipelineDone time clean (s.renumber oids updates) =
      (pipelineDone time clean s).renumber oids updates := by
  by_cases hlisted : s.summaryElements ≠ []
  · have hlisted' : (s.renumber oids updates).summaryElements ≠ [] := hlisted
    have hfilter : (s.renumber oids updates).failures.filter
        (fun f => f.element ∈ (s.renumber oids updates).summaryElements) =
          (s.failures.filter fun f => f.element ∈ s.summaryElements).map (Item.renumber oids) :=
      List.filter_map
    simp only [pipelineDone, if_pos hlisted, if_pos hlisted', hfilter, List.length_map]
    rfl
  · have hlisted' : ¬ (s.renumber oids updates).summaryElements ≠ [] := hlisted
    simp only [pipelineDone, if_neg hlisted, if_neg hlisted']
    rfl

theorem backfillFailures_renumber (failed : Nat) (s : State) :
    backfillFailures failed (s.renumber oids updates) =
      (backfillFailures failed s).renumber oids updates := by
  by_cases hmissed : s.failureCount = 0 ∧ failed > 0
  · have hmissed' : (s.renumber oids updates).failureCount = 0 ∧ failed > 0 := hmissed
    rw [backfillFailures, backfillFailures, if_pos hmissed, if_pos hmissed']
    rfl
  · have hmissed' : ¬ ((s.renumber oids updates).failureCount = 0 ∧ failed > 0) := hmissed
    rw [backfillFailures, backfillFailures, if_neg hmissed, if_neg hmissed']

theorem addFailureElem_renumber (elem : Str) (s : State) :
    addFailureElem elem (s.renumber oids updates) =
      (addFailureElem elem s).renumber oids updates := by
  have hany : (s.failures.map (Item.renumber oids)).any (fun f => f.element = elem) =
      s.failures.any fun f => f.element = elem := List.any_map
  simp only [addFailureElem, State.renumber, hany]
  split
  · rfl
  · simp [placeholder, Item.renumber, Nat.add_assoc]

/-- A write through commutes when the written values do. -/
theorem writeThrough_renumber {g k : Item → Item} (oid : Nat)
    (hg : ∀ c, g (c.renumber oids) = (k c).renumber oids) (s : State) :
    (s.renumber oids updates).writeThrough (oids + oid) g =
      (s.writeThrough oid k).renumber oids updates := by
  have hmap : (s.completed.map (Item.renumber oids)).map
      (fun c => if c.oid = oids + oid then g c else c) =
        (s.completed.map fun c => if c.oid = oid then k c else c).map (Item.renumber oids) := by
    rw [List.map_map, List.map_map]
    refine List.map_congr_left fun c _ => ?_
    have hoid : (c.renumber oids).oid = oids + oid ↔ c.oid = oid := Nat.add_left_cancel_iff
    by_cases hc : c.oid = oid
    · simp only [Function.comp_apply, if_pos hc, if_pos (hoid.mpr hc), hg]
    · simp only [Function.comp_apply, if_neg hc, if_neg (mt hoid.mp hc)]
  simp only [State.writeThrough, State.renumber, hmap]

theorem setFailLog_renumber (path : Str) (s : State) :
    setFailLog path (s.renumber oids updates) = (setFailLog path s).renumber oids updates := by
  have hfind : (s.renumber oids updates).failures.reverse.find? Item.lacksLog =
      (s.failures.reverse.find? Item.lacksLog).map (Item.renumber oids) := by
    rw [State.renumber, ← List.map_reverse, List.find?_map]
    rfl
  have hmodify : Dict.modifyFirst Item.lacksLog (Item.setLog path)
      (s.renumber oids updates).failures.reverse =
        (Dict.modifyFirst Item.lacksLog (Item.setLog path) s.failures.reverse).map
          (Item.renumber oids) := by
    rw [State.renumber, ← List.map_reverse]
    have hlacks (f : Item) : Item.lacksLog (f.renumber oids) = Item.lacksLog f := rfl
    have hset (f : Item) : (f.renumber oids).setLog path = (f.setLog path).renumber oids := rfl
    exact Dict.modifyFirst_map hlacks hset _
  rw [setFailLog, setFailLog, hfind, hmodify, ← List.map_reverse]
  cases s.failures.reverse.find? Item.lacksLog with
  | none => rfl
  | some f =>
    exact writeThrough_renumber oids updates (k := Item.setLog path) f.oid (fun _ => rfl)
      { s with failures :=
        (Dict.modifyFirst Item.lacksLog (Item.setLog path) s.failures.reverse).reverse }

theorem done_renumber (element hash : Str) (clock : Clock) (s : State) :
    done element hash clock (s.renumber oids updates) =
      (done element hash clock s).renumber oids updates := by
  simp only [done, State.renumber, List.map_append, List.map_singleton, Nat.add_assoc]
  rfl

theorem recordFailure_renumber (item : Item) (s : State) :
    recordFailure (item.renumber oids) (s.renumber oids updates) =
      (recordFailure item s).renumber oids updates := by
  have hany : (s.renumber oids updates).failures.any
      (fun f => f.hash = (item.renumber oids).hash) = s.failures.any fun f => f.hash = item.hash :=
    List.any_map
  have hfind : (s.renumber oids updates).failures.find?
      (Item.isPlaceholder (item.renumber oids).element) =
        (s.failures.find? (Item.isPlaceholder item.element)).map (Item.renumber oids) :=
    List.find?_map
  have hmodify : Dict.modifyFirst (Item.isPlaceholder (item.renumber oids).element)
      (item.renumber oids).overwrite (s.renumber oids updates).failures =
        (Dict.modifyFirst (Item.isPlaceholder item.element) item.overwrite s.failures).map
          (Item.renumber oids) := by
    have hplaceholder (f : Item) : Item.isPlaceholder (item.renumber oids).element
      (f.renumber oids) = Item.isPlaceholder item.element f := rfl
    have hwrite (f : Item) :
      (item.renumber oids).overwrite (f.renumber oids) = (item.overwrite f).renumber oids := rfl
    exact Dict.modifyFirst_map hplaceholder hwrite _
  rw [recordFailure, recordFailure, hany, hfind, hmodify]
  split
  · rfl
  · cases s.failures.find? (Item.isPlaceholder item.element) with
    | none => simp [State.renumber]
    | some f =>
      exact writeThrough_renumber oids updates (k := item.overwrite) f.oid (fun _ => rfl)
        { s with failures :=
          Dict.modifyFirst (Item.isPlaceholder item.element) item.overwrite s.failures }

theorem fail_renumber (element hash : Str) (clock : Clock) (s : State) :
    fail element hash clock (s.renumber oids updates) =
      (fail element hash clock s).renumber oids updates := by
  cases hentry : Dict.get? s.active hash with
  | none =>
    have hentry' : Dict.get? (s.renumber oids updates).active hash = none := hentry
    simp only [fail, hentry, hentry']
  | some entry =>
    have hentry' : Dict.get? (s.renumber oids updates).active hash = some entry := hentry
    let item : Item :=
      { element, hash, duration := truncate (clock.first - entry.start), status := .failure
        log := some entry.log, oid := s.nextOid }
    let t : State := { s with
      active := Dict.pop s.active hash
      completed := s.completed ++ [item]
      nextOid := s.nextOid + 1 }
    have hcompleted : { s.renumber oids updates with
        active := Dict.pop s.active hash
        completed := (s.renumber oids updates).completed ++ [item.renumber oids]
        nextOid := (s.renumber oids updates).nextOid + 1 } = t.renumber oids updates := by
      simp only [State.renumber, t, List.map_append, List.map_singleton, Nat.add_assoc]
    have hrecord := recordFailure_renumber oids updates item t
    rw [← hcompleted] at hrecord
    simp only [fail, hentry, hentry']
    refine (congrArg (fun u : State =>
      { u with failureCount := u.failures.length, buildEndTs := clock.second }) hrecord).trans ?_
    simp only [State.renumber, List.length_map]
    rfl

theorem symmetry_renumber : Symmetry (State.renumber oids updates) where
  update hfn s := by
    refine update_renumber oids updates ?_
    cases hfn with
    | header | total | recent | start | skipPull | pull => rfl
    | summary time clean => exact pipelineDone_renumber oids updates time clean s
    | queue n => exact backfillFailures_renumber oids updates n s
    | listed elem => exact addFailureElem_renumber oids updates elem s
    | failLog path => exact setFailLog_renumber oids updates path s
    | done element hash clock => exact done_renumber oids updates element hash clock s
    | fail element hash clock => exact fail_renumber oids updates element hash clock s
  reset _ := rfl

end Renumber

/-! ## Behind a header -/

/-- The call begins a new build. -/
def Call.begins : Call → Bool
  | .line _ raw => isHeader raw
  | .reset => true

/-- A record as the page gets it: the identity of a dict is not part of it. -/
def Item.shown (f : Item) : Item := { f with oid := 0 }

/-- A snapshot as the page gets it. -/
def Snapshot.shown {σ : Type} (x : Snapshot σ) : Snapshot σ :=
  { x with
    completed := x.completed.map Item.shown
    failures := x.failures.map Item.shown }

theorem apply_begins {c : Call} (h : c.begins) (host : Host) (s : State) :
    c.apply host s =
      (c.apply host { totalElements := s.totalElements }).renumber s.nextOid s.version := by
  cases c with
  | reset => rfl
  | line clock raw =>
    obtain ⟨hm, hhm⟩ := Option.isSome_iff_exists.mp h
    have hline (t : State) : afterLine host clock raw t =
        t.update (setStart (headerTime host clock (hm.group 1)) (cleanLine raw)) := by
      simp only [afterLine, parseLine, isHeader_ne_nil h, hhm, if_false]
    simp only [Call.apply, hline]
    rfl

theorem shown_renumber (oids : Nat) (l : List Item) :
    (l.map (Item.renumber oids)).map Item.shown = l.map Item.shown := by
  rw [List.map_map]
  rfl

theorem snapshot_renumber {σ : Type} (now : Host.Now σ) (oids updates : Nat) (s : State) :
    ((s.renumber oids updates).snapshot now).shown =
      { (s.snapshot now).shown with version := updates + s.version } := by
  have hlast : lastN 60 (s.completed.map (Item.renumber oids)) =
      (lastN 60 s.completed).map (Item.renumber oids) := by
    simp [lastN, List.map_drop]
  simp only [Snapshot.shown, State.snapshot, State.renumber, hlast, shown_renumber]
  rfl

/-- **A new build forgets the log before it.** Whatever the dashboard has read before, from a
header or a reset on it shows what a fresh dashboard with the same `total_elements` shows of the
same calls. Only the version goes on counting. -/
theorem header_forgets {σ : Type} (host : Host) (s : State) (c : Call) (hc : c.begins)
    (cs : List Call) (now : Host.Now σ) :
    ((runCalls host (c :: cs) s).snapshot now).shown =
      { ((runCalls host (c :: cs) { totalElements := s.totalElements }).snapshot now).shown with
        version := s.version +
          (runCalls host (c :: cs) { totalElements := s.totalElements }).version } := by
  rw [runCalls_cons, apply_begins hc, (symmetry_renumber _ _).runCalls, snapshot_renumber]
  rfl

/-- The header of a log. -/
def logHeader : Call := .line ⟨0, 0⟩ "=== Build started at noon ===".toList

/-- The lines of a build that succeeds. -/
def oneBuild : List Call :=
  [.line ⟨0, 0⟩ "[00:00:01][abcdef][build:a.bst] START   a/abcdef-build.log".toList,
    .line ⟨9, 0⟩ "[00:00:09][abcdef][build:a.bst] SUCCESS a/abcdef-build.log".toList]

/-- Three elements were pulled, of five, and one was built. -/
def pulledAndBuilt : State := runCalls Host.root oneBuild { pulled := 3, totalElements := 5 }

/-- The same build behind a header. -/
theorem header_forgets_pulled :
    ((runCalls Host.root (logHeader :: oneBuild) pulledAndBuilt).snapshot
        (⟨0, false, ()⟩ : Host.Now Unit)).shown =
      { ((runCalls Host.root (logHeader :: oneBuild)
          { totalElements := pulledAndBuilt.totalElements }).snapshot ⟨0, false, ()⟩).shown with
        version := pulledAndBuilt.version + (runCalls Host.root (logHeader :: oneBuild)
          { totalElements := pulledAndBuilt.totalElements }).version } ∧
    pulledAndBuilt.completed.length = 1 ∧
      (runCalls Host.root (logHeader :: oneBuild) pulledAndBuilt).completed.length = 1 :=
  ⟨header_forgets Host.root pulledAndBuilt logHeader (by decide +kernel) oneBuild _,
    by decide +kernel, by decide +kernel⟩

end XfceLinux.Dashboard
