import XfceLinux.Dashboard.FailureBlock

/-!
# Live and summary reports of failures

A failed element is reported by its build events, by an element line of the Failure Summary,
or by both. The summary line may come first and leave a placeholder, which the live failure
then takes over, or last and find the element there. Whatever the order, `failures` ends with
one entry for each reported element (`failure_reports_commute`).
-/

namespace XfceLinux.Dashboard

open Lib Lib.Text Lib.Regex

/-! ## Reports and their orders -/

/-- What a line reports of an element, or of an element and its hash. -/
inductive Report where
  | start (p : Str × Str)
  | fail (p : Str × Str)
  | listed (elem : Str)
deriving DecidableEq

/-- The line is read as this report. -/
def ReadAs (host : Host) (raw : Str) : Report → Prop
  | .start p => isHeader raw = false ∧
      ∃ e, event? host (cleanLine raw) = some e ∧ e.effect = .start ∧ (e.short, e.hash) = p
  | .fail p => isHeader raw = false ∧
      ∃ e, event? host (cleanLine raw) = some e ∧ e.effect = .fail ∧ (e.short, e.hash) = p
  | .listed elem => failureElem host (cleanLine raw) = some elem

/-- An order of the reports in which every build starts before it fails. -/
structure Shuffle (failing : List (Str × Str)) (listed : List Str) (rs : List Report) : Prop where
  perm : rs.Perm (failing.map .start ++ (failing.map .fail ++ listed.map .listed))
  ordered : ∀ p ∈ failing, [Report.start p, .fail p].Sublist rs

/-- The lines are such an order. -/
def Interleaves (host : Host) (failing : List (Str × Str)) (listed : List Str)
    (ls : List Line) : Prop :=
  ∃ rs, Shuffle failing listed rs ∧ List.Forall₂ (fun l r => ReadAs host l.2 r) ls rs

/-- Elements and hashes are not shared. -/
structure Distinct (failing : List (Str × Str)) : Prop where
  elements : (failing.map (·.1)).Nodup
  hashes : (failing.map (·.2)).Nodup
  hashed : ∀ p ∈ failing, p.2 ≠ []

namespace Shuffle

variable {failing : List (Str × Str)} {listed : List Str} {rs : List Report}

theorem mem_start (h : Shuffle failing listed rs) {p : Str × Str} :
    .start p ∈ rs ↔ p ∈ failing := by
  simp [h.perm.mem_iff]

theorem mem_fail (h : Shuffle failing listed rs) {p : Str × Str} :
    .fail p ∈ rs ↔ p ∈ failing := by
  simp [h.perm.mem_iff]

theorem mem_listed (h : Shuffle failing listed rs) {e : Str} : .listed e ∈ rs ↔ e ∈ listed := by
  simp [h.perm.mem_iff]

theorem count_fail (h : Shuffle failing listed rs) (hd : Distinct failing) {p : Str × Str}
    (hp : p ∈ failing) : rs.count (.fail p) = 1 := by
  have hnodup : (failing.map Report.fail).Nodup :=
    (List.Nodup.of_map _ hd.elements).map fun _ _ => Report.fail.inj
  have hstart : (failing.map Report.start).count (.fail p) = 0 :=
    List.count_eq_zero.mpr (by simp)
  have hlisted : (listed.map Report.listed).count (.fail p) = 0 :=
    List.count_eq_zero.mpr (by simp)
  have hfail : (failing.map Report.fail).count (.fail p) = 1 :=
    List.count_eq_one_of_mem hnodup (List.mem_map_of_mem hp)
  rw [h.perm.count_eq, List.count_append, List.count_append, hstart, hfail, hlisted]

/-- When a failure is read, the build has started and has not failed before. -/
theorem before_fail {past future : List Report} {p : Str × Str}
    (h : Shuffle failing listed (past ++ .fail p :: future)) (hd : Distinct failing) :
    .start p ∈ past ∧ .fail p ∉ past := by
  have hp : p ∈ failing := h.mem_fail.mp (by simp)
  have hcount := h.count_fail hd hp
  rw [List.count_append, List.count_cons_self] at hcount
  have hpast : .fail p ∉ past := List.count_eq_zero.mp (by omega)
  have hfuture : .fail p ∉ future := List.count_eq_zero.mp (by omega)
  refine ⟨?_, hpast⟩
  obtain ⟨us, vs, huv, hus, hvs⟩ := List.sublist_append_iff.mp (h.ordered p hp)
  cases us with
  | cons r us =>
    obtain ⟨rfl, -⟩ := List.cons.inj huv
    exact hus.subset List.mem_cons_self
  | nil =>
    -- the start would stand behind the failure, and a second failure behind the start
    rw [List.nil_append] at huv
    subst huv
    have hbehind := List.Sublist.of_cons_of_ne (by simp) hvs
    exact absurd (hbehind.subset (by simp)) hfuture

end Shuffle

/-! ## What is noted of the reports -/

/-- The elements and hashes of the failures. -/
def State.pairs (s : State) : List (Str × Str) := s.failures.map fun f => (f.element, f.hash)

/-- The reports leave an entry of the element: with its hash when it has failed live, and
without one when it is only listed. -/
def Notes (rs : List Report) (e h : Str) : Prop :=
  .fail (e, h) ∈ rs ∨ h = [] ∧ .listed e ∈ rs ∧ ∀ k, .fail (e, k) ∉ rs

theorem notes_start {rs : List Report} {p : Str × Str} {e h : Str} :
    Notes (rs ++ [.start p]) e h ↔ Notes rs e h := by
  simp [Notes]

/-- An element line adds an entry when the element has not failed live. -/
theorem notes_listed {rs : List Report} {a e h : Str} :
    Notes (rs ++ [.listed a]) e h ↔
      Notes rs e h ∨ e = a ∧ h = [] ∧ ∀ k, .fail (a, k) ∉ rs := by
  by_cases he : e = a
  · subst he
    simp only [Notes, List.mem_append, List.mem_singleton, reduceCtorEq, or_false, or_true,
      true_and]
    constructor
    · rintro (hfail | ⟨hh, hno⟩)
      · exact .inl (.inl hfail)
      · exact .inr ⟨hh, hno⟩
    · rintro ((hfail | ⟨hh, -, hno⟩) | ⟨hh, hno⟩)
      · exact .inl hfail
      · exact .inr ⟨hh, hno⟩
      · exact .inr ⟨hh, hno⟩
  · simp [Notes, he]

/-- The first live failure of an element replaces the entry of an element line. -/
theorem notes_fail {rs : List Report} {p : Str × Str} (hnew : ∀ k, .fail (p.1, k) ∉ rs)
    {e h : Str} :
    Notes (rs ++ [.fail p]) e h ↔ (e, h) = p ∨ Notes rs e h ∧ e ≠ p.1 := by
  by_cases he : e = p.1
  · subst he
    have htaken : ¬∀ k, .fail (p.1, k) ∉ rs ++ [Report.fail p] := fun h => h p.2 (by simp)
    constructor
    · rintro (hfail | ⟨-, -, hno⟩)
      · rcases List.mem_append.mp hfail with hfail | hfail
        · exact absurd hfail (hnew h)
        · exact .inl (Report.fail.inj (List.mem_singleton.mp hfail))
      · exact absurd hno htaken
    · rintro (hp | ⟨-, hne⟩)
      · exact .inl (by simp [hp])
      · exact absurd rfl hne
  · have hep : ∀ k, (e, k) ≠ p := by
      rintro k rfl
      exact he rfl
    simp [Notes, he, hep]

/-- The state after the reports. -/
structure Noted (rs : List Report) (s : State) : Prop where
  active : ∀ p, .start p ∈ rs → .fail p ∉ rs → (Dict.get? s.active p.2).isSome
  pairs : ∀ e h, (e, h) ∈ s.pairs ↔ Notes rs e h
  elements : (s.pairs.map (·.1)).Nodup
  counted : s.failureCount = s.failures.length

theorem Noted.congr {rs : List Report} {s t : State} (h : Noted rs s) (hst : SameBuild s t) :
    Noted rs t where
  active := by rw [hst.active]; exact h.active
  pairs := by rw [State.pairs, hst.failures]; exact h.pairs
  elements := by rw [State.pairs, hst.failures]; exact h.elements
  counted := by rw [hst.failureCount, hst.failures]; exact h.counted

theorem Noted.start {rs : List Report} {s : State} (h : Noted rs s) (p : Str × Str) (log : Str)
    (time : ℚ) : Noted (rs ++ [.start p]) (Dashboard.start p.1 p.2 log time s) := by
  refine ⟨?_, fun e k => (h.pairs e k).trans notes_start.symm, h.elements, h.counted⟩
  intro q hstart hfail
  rw [Dashboard.start, Dict.get?_set]
  by_cases hq : p.2 = q.2
  · simp [hq]
  · have hpq : q ≠ p := fun heq => hq (congrArg Prod.snd heq).symm
    rw [if_neg hq]
    exact h.active q (by simpa [hpq] using hstart) (by simpa using hfail)

/-! ## Element lines -/

theorem any_element {s : State} {e : Str} :
    (s.failures.any fun f => f.element = e) = true ↔ e ∈ s.pairs.map (·.1) := by
  simp [State.pairs]

/-- An element with an entry, from a failure or from another line, gets no other one. -/
theorem pairs_addFailureElem (e : Str) (s : State) :
    (addFailureElem e s).pairs =
      if e ∈ s.pairs.map (·.1) then s.pairs else s.pairs ++ [(e, [])] := by
  by_cases h : e ∈ s.pairs.map (·.1)
  · rw [if_pos h, addFailureElem]
    dsimp only
    rw [if_pos (any_element.mpr h)]
    rfl
  · rw [if_neg h, addFailureElem]
    dsimp only
    rw [if_neg fun hany => h (any_element.mp hany)]
    simp [State.pairs, placeholder]

theorem addFailureElem_active (e : Str) (s : State) : (addFailureElem e s).active = s.active := by
  unfold addFailureElem
  dsimp only
  split <;> rfl

theorem addFailureElem_counted {e : Str} {s : State} (h : s.failureCount = s.failures.length) :
    (addFailureElem e s).failureCount = (addFailureElem e s).failures.length := by
  unfold addFailureElem
  dsimp only
  split
  · exact h
  · simp only [List.length_append, List.length_singleton]
    omega

theorem Noted.listed {rs : List Report} {s : State} (h : Noted rs s) (e : Str) :
    Noted (rs ++ [.listed e]) (addFailureElem e s) := by
  have hactive : ∀ p, .start p ∈ rs ++ [Report.listed e] → .fail p ∉ rs ++ [Report.listed e] →
      (Dict.get? (addFailureElem e s).active p.2).isSome := by
    intro p hstart hfail
    rw [addFailureElem_active]
    exact h.active p (by simpa using hstart) (by simpa using hfail)
  have hpairs := pairs_addFailureElem e s
  by_cases hknown : e ∈ s.pairs.map (·.1)
  · rw [if_pos hknown] at hpairs
    refine ⟨hactive, fun a k => ?_, hpairs ▸ h.elements, addFailureElem_counted h.counted⟩
    rw [hpairs, h.pairs, notes_listed]
    refine ⟨.inl, ?_⟩
    rintro (hnotes | ⟨rfl, rfl, hno⟩)
    · exact hnotes
    · -- without a live failure it is another line that listed the element
      obtain ⟨q, hq, rfl⟩ := List.mem_map.mp hknown
      rcases (h.pairs q.1 q.2).mp hq with hfail | ⟨-, hlisted, -⟩
      · exact absurd hfail (hno q.2)
      · exact .inr ⟨rfl, hlisted, hno⟩
  · rw [if_neg hknown] at hpairs
    have hno : ∀ k, .fail (e, k) ∉ rs := fun k hk =>
      hknown (List.mem_map_of_mem ((h.pairs e k).mpr (.inl hk)))
    refine ⟨hactive, fun a k => ?_, ?_, addFailureElem_counted h.counted⟩
    · rw [hpairs, List.mem_append, List.mem_singleton, h.pairs, notes_listed, Prod.mk.injEq]
      simp only [hno, not_false_eq_true, implies_true, and_true]
    · rw [hpairs, List.map_append, List.map_singleton]
      exact h.elements.append (List.nodup_singleton e) (by simpa using hknown)

/-! ## Live failures -/

section Recorded

variable {s : State} {item : Item} (hhash : ∀ p ∈ s.pairs, p.2 ≠ item.hash)

include hhash

theorem not_any_hash : ¬(s.failures.any fun f => f.hash = item.hash) = true := by
  simpa [State.pairs] using hhash

/-- A live failure takes over the placeholder of its element. -/
theorem pairs_promote {f : Item}
    (hfind : s.failures.find? (Item.isPlaceholder item.element) = some f) :
    ∃ before after, s.pairs = before ++ (item.element, []) :: after ∧
      (recordFailure item s).pairs = before ++ (item.element, item.hash) :: after := by
  obtain ⟨hf, before, after, hsplit, hbefore⟩ := List.find?_eq_some_iff_append.mp hfind
  have hplaceholder := hf
  rw [Item.isPlaceholder, Bool.and_eq_true, decide_eq_true_eq, decide_eq_true_eq] at hplaceholder
  have hmodify : Dict.modifyFirst (Item.isPlaceholder item.element) item.overwrite s.failures =
      before ++ item.overwrite f :: after := by
    rw [hsplit, Dict.modifyFirst_append (fun b hb => by simpa using hbefore b hb) hf]
  rw [recordFailure, if_neg (not_any_hash hhash), hfind]
  refine ⟨before.map fun f => (f.element, f.hash), after.map fun f => (f.element, f.hash), ?_, ?_⟩
  · rw [State.pairs, hsplit, List.map_append, List.map_cons, hplaceholder.1, hplaceholder.2]
  · simp only [State.pairs, State.writeThrough, hmodify, List.map_append, List.map_cons,
      Item.overwrite]

/-- Without a placeholder it gets an entry of its own. -/
theorem pairs_append (hfind : s.failures.find? (Item.isPlaceholder item.element) = none) :
    (item.element, []) ∉ s.pairs ∧
      (recordFailure item s).pairs = s.pairs ++ [(item.element, item.hash)] := by
  constructor
  · intro hmem
    obtain ⟨f, hf, hpair⟩ := List.mem_map.mp hmem
    obtain ⟨helement, hplain⟩ := Prod.mk.inj hpair
    apply List.find?_eq_none.mp hfind f hf
    rw [Item.isPlaceholder, Bool.and_eq_true, decide_eq_true_eq, decide_eq_true_eq]
    exact ⟨helement, hplain⟩
  · rw [recordFailure, if_neg (not_any_hash hhash), hfind]
    simp [State.pairs]

/-- A failure with a new hash takes over the placeholder of its element, or gets an entry. -/
theorem pairs_recordFailure (hplain : ∀ p ∈ s.pairs, p.1 = item.element → p.2 = [])
    (helements : (s.pairs.map (·.1)).Nodup) :
    ((recordFailure item s).pairs.map (·.1)).Nodup ∧
    ∀ e h, (e, h) ∈ (recordFailure item s).pairs ↔
      (e, h) = (item.element, item.hash) ∨ (e, h) ∈ s.pairs ∧ e ≠ item.element := by
  cases hfind : s.failures.find? (Item.isPlaceholder item.element) with
  | some f =>
    obtain ⟨before, after, hold, hnew⟩ := pairs_promote hhash hfind
    rw [hold] at helements ⊢
    rw [hnew]
    exact ⟨by simpa using helements, fun e h => Dict.mem_replace helements (e, h)⟩
  | none =>
    obtain ⟨hno, hnew⟩ := pairs_append hhash hfind
    have hfresh : item.element ∉ s.pairs.map (·.1) := by
      intro hmem
      obtain ⟨q, hq, hqe⟩ := List.mem_map.mp hmem
      have hqh := hplain q hq hqe
      rw [← hqe, ← hqh] at hno
      exact hno hq
    rw [hnew, List.map_append, List.map_singleton]
    refine ⟨helements.append (List.nodup_singleton _) (by simpa using hfresh), ?_⟩
    intro e h
    rw [List.mem_append, List.mem_singleton, or_comm]
    apply or_congr_right
    constructor
    · intro hmem
      refine ⟨hmem, ?_⟩
      rintro rfl
      exact hfresh (List.mem_map_of_mem hmem)
    · exact And.left

end Recorded

theorem Noted.fail {rs : List Report} {s : State} (h : Noted rs s) {p : Str × Str}
    (hhash : p.2 ≠ []) (hstart : .start p ∈ rs) (hnew : .fail p ∉ rs)
    (hother : ∀ q, .start q ∈ rs ∨ .fail q ∈ rs → q ≠ p → q.1 ≠ p.1 ∧ q.2 ≠ p.2)
    (clock : Clock) : Noted (rs ++ [.fail p]) (Dashboard.fail p.1 p.2 clock s) := by
  obtain ⟨entry, hentry⟩ := Option.isSome_iff_exists.mp (h.active p hstart hnew)
  obtain ⟨item, t, helement, hitem, -, -, ht, hfail⟩ := fail_active hentry p.1 clock
  have hpairs : t.pairs = s.pairs := by rw [ht]; rfl
  have hdiffers : ∀ q, .fail q ∈ rs → q.1 ≠ p.1 ∧ q.2 ≠ p.2 := by
    intro q hq
    refine hother q (.inr hq) ?_
    rintro rfl
    exact hnew hq
  have hunused : ∀ q ∈ t.pairs, q.2 ≠ item.hash := by
    intro q hq
    rw [hpairs] at hq
    rw [hitem]
    rcases (h.pairs q.1 q.2).mp hq with hq | ⟨hnil, -, -⟩
    · exact (hdiffers q hq).2
    · exact hnil ▸ hhash.symm
  have hplain : ∀ q ∈ t.pairs, q.1 = item.element → q.2 = [] := by
    intro q hq hqe
    rw [hpairs] at hq
    rcases (h.pairs q.1 q.2).mp hq with hq | ⟨hnil, -, -⟩
    · exact absurd (hqe.trans helement) (hdiffers q hq).1
    · exact hnil
  obtain ⟨helements, hmem⟩ :=
    pairs_recordFailure hunused hplain (by rw [hpairs]; exact h.elements)
  rw [hfail]
  refine ⟨?_, ?_, helements, rfl⟩
  · intro q hqstart hqfail
    have hqp : q ≠ p := by
      rintro rfl
      simp at hqfail
    have hqstart : .start q ∈ rs := by simpa using hqstart
    have hkept := h.active q hqstart (by simpa [hqp] using hqfail)
    rw [ht]
    simp only [Dict.get?_pop]
    rw [if_neg (hother q (.inl hqstart) hqp).2.symm]
    exact hkept
  · intro e k
    refine (hmem e k).trans ?_
    rw [helement, hitem, hpairs, h.pairs, notes_fail fun k hk => (hdiffers _ hk).1 rfl]

/-! ## Every order -/

section Orders

variable {host : Host} {failing : List (Str × Str)} {listed : List Str}

theorem Noted.line {past future : List Report} {r : Report} {s : State} (h : Noted past s)
    (hd : Distinct failing) (hsh : Shuffle failing listed (past ++ r :: future)) {l : Line}
    (hr : ReadAs host l.2 r) : Noted (past ++ [r]) (afterLine host l.1 l.2 s) := by
  cases r with
  | start p =>
    obtain ⟨hh, e, he, heff, rfl⟩ := hr
    have hrecent : Noted past (s.update (addRecent e.recent)) := h.congr ⟨rfl, rfl, rfl⟩
    rw [afterLine_event hh he, applyEvent_eq, heff]
    exact (hrecent.start (e.short, e.hash) _ _).congr ⟨rfl, rfl, rfl⟩
  | fail p =>
    obtain ⟨hh, e, he, heff, rfl⟩ := hr
    have hrecent : Noted past (s.update (addRecent e.recent)) := h.congr ⟨rfl, rfl, rfl⟩
    have hp : (e.short, e.hash) ∈ failing := hsh.mem_fail.mp (by simp)
    obtain ⟨hstart, hnew⟩ := hsh.before_fail hd
    have hother : ∀ q, .start q ∈ past ∨ .fail q ∈ past → q ≠ (e.short, e.hash) →
        q.1 ≠ e.short ∧ q.2 ≠ e.hash := by
      intro q hq hne
      have hqf : q ∈ failing := by
        rcases hq with hq | hq
        · exact hsh.mem_start.mp (List.mem_append_left _ hq)
        · exact hsh.mem_fail.mp (List.mem_append_left _ hq)
      exact ⟨fun heq => hne (List.inj_on_of_nodup_map hd.elements hqf hp heq),
        fun heq => hne (List.inj_on_of_nodup_map hd.hashes hqf hp heq)⟩
    rw [afterLine_event hh he, applyEvent_eq, heff]
    exact (hrecent.fail (hd.hashed _ hp) hstart hnew hother _).congr ⟨rfl, rfl, rfl⟩
  | listed e => exact (h.listed e).congr (afterLine_listed hr l.1 s)

theorem Noted.lines {past rs : List Report} {s : State} (h : Noted past s)
    (hd : Distinct failing) (hsh : Shuffle failing listed (past ++ rs)) {ls : List Line}
    (hls : List.Forall₂ (fun l r => ReadAs host l.2 r) ls rs) :
    Noted (past ++ rs) (runLines host ls s) := by
  induction hls generalizing past s with
  | nil => simpa [runLines] using h
  | @cons l r ls rs hr _ ih =>
    have hstep := h.line hd hsh hr
    rw [List.append_cons] at hsh ⊢
    exact ih hstep hsh

/-- One pair for each element that failed or was listed. -/
def reported (failing : List (Str × Str)) (listed : List Str) : List (Str × Str) :=
  failing ++ (listed.filter fun e => !(failing.map (·.1)).contains e).dedup.map (·, [])

theorem mem_reported {e h : Str} : (e, h) ∈ reported failing listed ↔
    (e, h) ∈ failing ∨ h = [] ∧ e ∈ listed ∧ ∀ k, (e, k) ∉ failing := by
  simp [reported]
  tauto

theorem nodup_reported (hd : Distinct failing) : (reported failing listed).Nodup := by
  apply (List.Nodup.of_map _ hd.elements).append
  · exact (List.nodup_dedup _).map fun a b hab => (Prod.mk.inj hab).1
  · intro q hq hlisted
    obtain ⟨e, he, rfl⟩ := List.mem_map.mp hlisted
    have hunlisted := (List.mem_filter.mp (List.mem_dedup.mp he)).2
    have hknown := List.contains_iff_mem.mpr (List.mem_map_of_mem (f := (·.1)) hq)
    simp only [hknown] at hunlisted
    cases hunlisted

theorem pairs_interleaves (hd : Distinct failing) {ls : List Line}
    (h : Interleaves host failing listed ls) :
    (runLines host ls {}).pairs.Perm (reported failing listed) ∧
      (runLines host ls {}).failureCount = (reported failing listed).length := by
  obtain ⟨rs, hsh, hls⟩ := h
  have hempty : Noted [] {} := by
    exact ⟨by simp, by simp [State.pairs, Notes], by simp [State.pairs], rfl⟩
  have hnoted : Noted rs (runLines host ls {}) := hempty.lines hd hsh hls
  have hperm : (runLines host ls {}).pairs.Perm (reported failing listed) := by
    rw [List.perm_ext_iff_of_nodup (List.Nodup.of_map _ hnoted.elements) (nodup_reported hd)]
    rintro ⟨e, k⟩
    rw [hnoted.pairs, mem_reported, Notes]
    simp only [hsh.mem_fail, hsh.mem_listed]
  refine ⟨hperm, ?_⟩
  rw [hnoted.counted, ← hperm.length_eq, State.pairs, List.length_map]

end Orders

/-- **Live and summary reports commute.** For failing elements with different hashes and any
element lines, every order of the lines in which each build starts before it fails leaves the
same failures: one for each element that failed live or was listed, with its hash if it failed
live; and `failure_count` is their number. -/
theorem failure_reports_commute (host : Host) (failing : List (Str × Str)) (listed : List Str)
    (hd : Distinct failing) (ls ms : List Line) (hls : Interleaves host failing listed ls)
    (hms : Interleaves host failing listed ms) :
    (runLines host ls {}).pairs.Perm (runLines host ms {}).pairs ∧
    (runLines host ls {}).pairs.Perm (reported failing listed) ∧
    (runLines host ls {}).failureCount = (reported failing listed).length ∧
    (runLines host ms {}).failureCount = (reported failing listed).length := by
  obtain ⟨hlperm, hlcount⟩ := pairs_interleaves hd hls
  obtain ⟨hmperm, hmcount⟩ := pairs_interleaves hd hms
  exact ⟨hlperm.trans hmperm.symm, hlperm, hlcount, hmcount⟩

/-- A build fails, and the summary lists it and an element that did not fail live. -/
def kwinLive : List Line :=
  [(⟨0, 0⟩, "[00:00:01][abcdef][build:kde/plasma/kwin.bst] START   kde/abcdef-build.log".toList),
    (⟨0, 0⟩, "[00:00:09][abcdef][build:kde/plasma/kwin.bst] FAILURE Command failed".toList)]

def kwinSummary : List Line :=
  [(⟨0, 0⟩, "    kde-build-meta.bst:kde/plasma/kwin.bst:".toList),
    (⟨0, 0⟩, "    kde/apps/dolphin.bst:".toList)]

def kwinPair : Str × Str := ("kde/plasma/kwin.bst".toList, "abcdef".toList)

def kwinListed : List Str := ["kde/plasma/kwin.bst".toList, "kde/apps/dolphin.bst".toList]

theorem kwinLive_reads : List.Forall₂ (fun l r => ReadAs Host.root l.2 r) kwinLive
    [.start kwinPair, .fail kwinPair] := by
  let short := "kde/plasma/kwin.bst".toList
  refine .cons ⟨?_, ⟨"START".toList, "build".toList, short, "abcdef".toList,
      "kde/abcdef-build.log".toList, true⟩, ?_, ?_, ?_⟩
    (.cons ⟨?_, ⟨"FAILURE".toList, "build".toList, short, "abcdef".toList,
      "Command failed".toList, false⟩, ?_, ?_, ?_⟩ .nil)
  all_goals decide +kernel

theorem kwinSummary_reads : List.Forall₂ (fun l r => ReadAs Host.root l.2 r) kwinSummary
    (kwinListed.map .listed) := by
  refine .cons (show _ = _ from ?_) (.cons (show _ = _ from ?_) .nil)
  all_goals decide +kernel

theorem failure_reports_commute_kwin :
    (runLines Host.root (kwinLive ++ kwinSummary) {}).pairs.Perm
        (runLines Host.root (kwinSummary ++ kwinLive) {}).pairs ∧
      (runLines Host.root (kwinLive ++ kwinSummary) {}).pairs.Perm
        (reported [kwinPair] kwinListed) ∧
      (runLines Host.root (kwinLive ++ kwinSummary) {}).failureCount =
        (reported [kwinPair] kwinListed).length ∧
      (runLines Host.root (kwinSummary ++ kwinLive) {}).failureCount =
        (reported [kwinPair] kwinListed).length := by
  apply failure_reports_commute Host.root [kwinPair] kwinListed
  · exact ⟨by simp, by simp, List.forall_mem_singleton.mpr (by decide)⟩
  · exact ⟨_, ⟨by decide, by simp⟩, List.rel_append kwinLive_reads kwinSummary_reads⟩
  · exact ⟨_, ⟨by decide, by simp⟩, List.rel_append kwinSummary_reads kwinLive_reads⟩

end XfceLinux.Dashboard
