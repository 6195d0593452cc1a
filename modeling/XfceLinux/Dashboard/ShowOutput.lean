import XfceLinux.Dashboard.Deptree

/-!
# Printing a dependency tree and reading it back

`bst show` prints an element as its name, a tab and its dependencies as a YAML list, which
goes on over lines of their own, and may leave blank lines behind it. The loop of
`_fetch_deptree` reads back every tree printed so (`fetched_printed`).
-/

namespace XfceLinux.Dashboard.Tree

open Lib Lib.Text

/-- A name without white space; it may begin with a dash. -/
def IsName (w : Str) : Prop := w ≠ [] ∧ ∀ c ∈ w, isSpace c = false

/-- An element as it is printed. -/
structure Printed where
  name : Str
  deps : List Str
  /-- The number of blank lines behind it. -/
  blanks : Nat

/-- `- dep` -/
def item (dep : Str) : Str := '-' :: ' ' :: dep

/-- The first line of an element holds its first dependency, or `[]`. -/
def Printed.lines (p : Printed) : List Str :=
  (match p.deps with
    | [] => [p.name ++ '\t' :: "[]".toList]
    | dep :: deps => (p.name ++ '\t' :: item dep) :: deps.map item) ++
  List.replicate p.blanks []

def printed (ps : List Printed) : Str := Lines.unlines '\n' (ps.flatMap Printed.lines)

/-- Names of elements and dependencies, and no element twice. -/
structure Printable (ps : List Printed) : Prop where
  name : ∀ p ∈ ps, IsName p.name
  dep : ∀ p ∈ ps, ∀ dep ∈ p.deps, IsName dep
  distinct : (ps.map Printed.name).Nodup

/-! ## One line -/

section Line

variable {name dep : Str}

theorem IsName.tab_notMem (h : IsName name) : '\t' ∉ name := by
  intro hmem
  exact absurd (h.2 _ hmem) (by decide)

theorem IsName.getLast?_append (h : IsName dep) (s : Str) :
    ∀ c ∈ (s ++ dep).getLast?, isSpace c = false := by
  intro c hc
  rw [List.getLast?_append_of_ne_nil _ h.1] at hc
  exact h.2 c (List.mem_of_getLast? hc)

theorem strip_item (h : IsName dep) : strip isSpace (item dep) = item dep := by
  refine strip_eq_self ?_ (h.getLast?_append ['-', ' '])
  rintro c ⟨⟩
  decide

/-- The dashes of a name stand behind the blank of its item. -/
theorem dependency_item (h : IsName dep) : dependency (item dep) = [dep] := by
  have hdash : lstrip (· == '-') (item dep) = ' ' :: dep := by
    simp [lstrip, item]
  have hstrip : strip isSpace (' ' :: dep) = dep := by
    have hspace : lstrip isSpace (' ' :: dep) = lstrip isSpace dep :=
      lstrip_append (List.forall_mem_singleton.mpr (by decide)) dep
    rw [strip, hspace]
    exact strip_of_forall h.2
  rw [dependency, hdash, hstrip, if_neg h.1]

variable (s : ShowReader)

theorem line_first (hname : IsName name) (hdep : IsName dep) :
    s.line (name ++ '\t' :: item dep) = ⟨s.flush, some (name, [dep])⟩ := by
  have hne : ¬ (item dep = [] ∨ item dep = "[]".toList) := by
    simp [item]
  rw [ShowReader.line, if_pos (by simp), partition_append hname.tab_notMem]
  simp only [strip_item hdep, strip_of_forall hname.2, if_neg hne, dependency_item hdep]

theorem line_none (hname : IsName name) :
    s.line (name ++ '\t' :: "[]".toList) = ⟨s.flush, some (name, [])⟩ := by
  have hstrip : strip isSpace "[]".toList = "[]".toList := by decide
  rw [ShowReader.line, if_pos (by simp), partition_append hname.tab_notMem]
  simp only [strip_of_forall hname.2, hstrip]
  rw [if_pos (.inr trivial)]

theorem line_item (nodes : List (Str × List Str)) (deps : List Str) (hdep : IsName dep) :
    ShowReader.line ⟨nodes, some (name, deps)⟩ (item dep) =
      ⟨nodes, some (name, deps ++ [dep])⟩ := by
  have htab : '\t' ∉ item dep := by
    have hdep := hdep.tab_notMem
    simp [item, hdep]
  rw [ShowReader.line, if_neg htab]
  simp only [strip_item hdep, dependency_item hdep]
  rfl

theorem line_blank : s.line [] = s := by
  obtain ⟨nodes, current⟩ := s
  cases current with
  | none => rfl
  | some element => rfl

end Line

/-! ## One element -/

theorem foldl_items (nodes : List (Str × List Str)) (name : Str) (deps : List Str)
    {more : List Str} (h : ∀ dep ∈ more, IsName dep) :
    (more.map item).foldl ShowReader.line ⟨nodes, some (name, deps)⟩ =
      ⟨nodes, some (name, deps ++ more)⟩ := by
  induction more generalizing deps with
  | nil => simp
  | cons dep more ih =>
    rw [List.map_cons, List.foldl_cons, line_item nodes deps (h dep List.mem_cons_self),
      ih _ fun d hd => h d (List.mem_cons_of_mem dep hd), List.append_assoc]
    rfl

theorem foldl_blanks (s : ShowReader) (n : Nat) :
    (List.replicate n []).foldl ShowReader.line s = s := by
  induction n with
  | zero => rfl
  | succ n ih => rw [List.replicate_succ, List.foldl_cons, line_blank, ih]

/-- Reading an element files the one before it. -/
theorem foldl_lines (s : ShowReader) {p : Printed} (hname : IsName p.name)
    (hdeps : ∀ dep ∈ p.deps, IsName dep) :
    p.lines.foldl ShowReader.line s = ⟨s.flush, some (p.name, p.deps)⟩ := by
  obtain ⟨name, deps, blanks⟩ := p
  cases deps with
  | nil =>
    rw [Printed.lines, List.foldl_append, foldl_blanks]
    exact line_none s hname
  | cons dep deps =>
    rw [Printed.lines, List.foldl_append, foldl_blanks, List.foldl_cons,
      line_first s hname (hdeps dep List.mem_cons_self),
      foldl_items _ _ _ fun d hd => hdeps d (List.mem_cons_of_mem dep hd)]
    rfl

/-! ## The whole tree -/

theorem flush_foldl {ps : List Printed} (h : ∀ p ∈ ps, IsName p.name)
    (hdep : ∀ p ∈ ps, ∀ dep ∈ p.deps, IsName dep) (s : ShowReader)
    (hdistinct : (s.flush.map (·.1) ++ ps.map Printed.name).Nodup) :
    ((ps.flatMap Printed.lines).foldl ShowReader.line s).flush =
      s.flush ++ ps.map fun p => (p.name, p.deps) := by
  induction ps generalizing s with
  | nil => simp
  | cons p ps ih =>
    have hnew : p.name ∉ s.flush.map (·.1) := by
      rw [List.nodup_append] at hdistinct
      intro hmem
      exact hdistinct.2.2 _ hmem _ List.mem_cons_self rfl
    have hflush : ShowReader.flush ⟨s.flush, some (p.name, p.deps)⟩ =
        s.flush ++ [(p.name, p.deps)] := Dict.set_of_notMem hnew p.deps
    rw [List.flatMap_cons, List.foldl_append,
      foldl_lines s (h p List.mem_cons_self) (hdep p List.mem_cons_self),
      ih (fun q hq => h q (List.mem_cons_of_mem p hq))
        fun q hq => hdep q (List.mem_cons_of_mem p hq)]
    · rw [hflush, List.append_assoc]
      rfl
    · rw [hflush, List.map_append, List.append_assoc]
      exact hdistinct

theorem not_isLineBreak_of_mem_lines {p : Printed} (hname : IsName p.name)
    (hdeps : ∀ dep ∈ p.deps, IsName dep) : ∀ l ∈ p.lines, ∀ c ∈ l, isLineBreak c = false := by
  have hword : ∀ w, IsName w → ∀ c ∈ w, isLineBreak c = false := by
    intro w hw c hc
    by_contra hbreak
    have hspace := isSpace_of_isLineBreak (Bool.not_eq_false _ ▸ hbreak)
    rw [hw.2 c hc] at hspace
    cases hspace
  have hitem : ∀ w, IsName w → ∀ c ∈ item w, isLineBreak c = false := by
    intro w hw c hc
    rcases List.mem_cons.mp hc with rfl | hc
    · decide
    · rcases List.mem_cons.mp hc with rfl | hc
      · decide
      · exact hword w hw c hc
  have hfirst : ∀ s : Str, (∀ c ∈ s, isLineBreak c = false) →
      ∀ c ∈ p.name ++ '\t' :: s, isLineBreak c = false := by
    intro s hs c hc
    rcases List.mem_append.mp hc with hc | hc
    · exact hword _ hname c hc
    · rcases List.mem_cons.mp hc with rfl | hc
      · decide
      · exact hs c hc
  obtain ⟨name, deps, blanks⟩ := p
  intro l hl
  rcases List.mem_append.mp hl with hl | hl
  · cases deps with
    | nil =>
      obtain rfl := List.mem_singleton.mp hl
      exact hfirst ['[', ']'] (by simp [isLineBreak])
    | cons dep deps =>
      rcases List.mem_cons.mp hl with rfl | hl
      · exact hfirst _ (hitem dep (hdeps dep List.mem_cons_self))
      · obtain ⟨d, hd, rfl⟩ := List.mem_map.mp hl
        exact hitem d (hdeps d (List.mem_cons_of_mem dep hd))
  · rw [List.eq_of_mem_replicate hl]
    exact List.forall_mem_nil _

/-- **Printing and reading back.** From the output for any tree, in any order of its elements
and with any blank lines, `_fetch_deptree` stores the elements with their dependencies. -/
theorem fetched_printed {ps : List Printed} (h : Printable ps) (BST_TARGET : Str)
    (shownAt : Nat) (stderr : Str) :
    fetched BST_TARGET shownAt (.exited 0 (printed ps) stderr) =
      ⟨.ready, ps.map fun p => (p.name, p.deps), BST_TARGET, none, shownAt⟩ := by
  have hlines : splitlines (printed ps) = ps.flatMap Printed.lines := by
    refine splitlines_unlines fun l hl => ?_
    obtain ⟨p, hp, hl⟩ := List.mem_flatMap.mp hl
    exact not_isLineBreak_of_mem_lines (h.name p hp) (h.dep p hp) l hl
  have hnodes : showNodes (printed ps) = ps.map fun p => (p.name, p.deps) := by
    rw [showNodes, hlines, flush_foldl h.name h.dep ⟨[], none⟩ h.distinct]
    rfl
  simp [fetched, hnodes]

/-- Names that begin with a dash, and an element without dependencies. -/
theorem fetched_printed_dashes :
    fetched "a".toList 0 (.exited 0 (printed
        [⟨"a".toList, ["-b".toList, "-".toList], 2⟩, ⟨"-b".toList, [], 0⟩]) []) =
      ⟨.ready, [("a".toList, ["-b".toList, "-".toList]), ("-b".toList, [])], "a".toList, none,
        0⟩ :=
  fetched_printed ⟨by simp [IsName, isSpace], by simp [IsName, isSpace], by decide⟩ _ 0 []

end XfceLinux.Dashboard.Tree
