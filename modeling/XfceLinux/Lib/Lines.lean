import Mathlib

/-!
# Lines of a growing text

A text over any alphabet, read as terminated lines and an unfinished rest. `rest` is what a
reader keeps when it splits what it has at `sep` and hands on all pieces but the last. The
lines of a text that grows are handed on once each: `lines_append` and `rest_append`. A
text is determined by its lines and its rest (`lines_rest_inj`).
-/

namespace XfceLinux.Lib.Lines

variable {α : Type*} [DecidableEq α] {sep : α}

/-- The terminated lines, without their separators. -/
def lines (sep : α) (s : List α) : List (List α) := (s.splitOn sep).dropLast

/-- What stands behind the last separator. -/
def rest (sep : α) (s : List α) : List α := (s.splitOn sep).getLast (List.splitOn_ne_nil sep s)

/-- Lines written out with their separators. -/
def unlines (sep : α) (ls : List (List α)) : List α := ls.flatMap (· ++ [sep])

theorem splitOn_eq (s : List α) : s.splitOn sep = lines sep s ++ [rest sep s] :=
  (List.dropLast_append_getLast _).symm

@[simp] theorem lines_nil : lines sep [] = [] := by simp [lines]

@[simp] theorem rest_nil : rest sep [] = [] := by simp [rest]

theorem append_cons_inj {s t u v : List α} (hs : sep ∉ s) (ht : sep ∉ t)
    (h : s ++ sep :: u = t ++ sep :: v) : s = t ∧ u = v := by
  have hsplit := congrArg (List.splitOn sep) h
  rw [List.splitOn_append_cons_self_of_not_mem hs, List.splitOn_append_cons_self_of_not_mem ht]
    at hsplit
  obtain rfl := (List.cons.inj hsplit).1
  exact ⟨rfl, (List.cons.inj (List.append_cancel_left h)).2⟩

theorem notMem_of_mem_splitOn {s l : List α} (h : l ∈ s.splitOn sep) : sep ∉ l := by
  induction s generalizing l with
  | nil => simp_all
  | cons x s ih =>
    rw [List.splitOn_cons_eq_if_modifyHead] at h
    split at h
    · rcases List.mem_cons.mp h with rfl | h
      · simp
      · exact ih h
    · rename_i hx
      obtain ⟨m, ms, hms⟩ := List.exists_cons_of_ne_nil (List.splitOn_ne_nil sep s)
      rw [hms, List.modifyHead_cons] at h
      rcases List.mem_cons.mp h with rfl | h
      · have hm : sep ∉ m := ih (hms ▸ List.mem_cons_self)
        have hne : sep ≠ x := fun he => hx (by simp [he])
        exact List.not_mem_cons_of_ne_of_not_mem hne hm
      · exact ih (hms ▸ List.mem_cons_of_mem _ h)

theorem notMem_lines {s l : List α} (h : l ∈ lines sep s) : sep ∉ l :=
  notMem_of_mem_splitOn (List.dropLast_subset _ h)

theorem notMem_rest (s : List α) : sep ∉ rest sep s :=
  notMem_of_mem_splitOn (List.getLast_mem _)

omit [DecidableEq α] in
theorem intercalate_append_singleton (ls : List (List α)) (r : List α) :
    [sep].intercalate (ls ++ [r]) = unlines sep ls ++ r := by
  induction ls with
  | nil => simp [unlines]
  | cons l ls ih =>
    rw [List.cons_append, List.intercalate_cons_of_ne_nil (by simp), ih]
    simp [unlines]

theorem rest_of_notMem {s : List α} (h : sep ∉ s) : rest sep s = s := by
  simp [rest, List.splitOn_eq_singleton h]

/-- The lines and the rest make up the text. -/
theorem unlines_lines_append_rest (sep : α) (s : List α) :
    unlines sep (lines sep s) ++ rest sep s = s := by
  rw [← intercalate_append_singleton, ← splitOn_eq, List.intercalate_splitOn]

theorem splitOn_unlines_append {ls : List (List α)} (h : ∀ l ∈ ls, sep ∉ l) (s : List α) :
    (unlines sep ls ++ s).splitOn sep = ls ++ s.splitOn sep := by
  induction ls with
  | nil => rfl
  | cons l ls ih =>
    have hl : sep ∉ l := h l List.mem_cons_self
    have hls : ∀ m ∈ ls, sep ∉ m := fun m hm => h m (List.mem_cons_of_mem _ hm)
    have hcons : unlines sep (l :: ls) ++ s = l ++ sep :: (unlines sep ls ++ s) := by
      simp [unlines]
    rw [hcons, List.splitOn_append_cons_self_of_not_mem hl, ih hls, List.cons_append]

/-- **A growing text.** What is appended goes behind the unfinished rest. -/
theorem splitOn_append (s t : List α) :
    (s ++ t).splitOn sep = lines sep s ++ (rest sep s ++ t).splitOn sep := by
  conv_lhs => rw [← unlines_lines_append_rest sep s, List.append_assoc]
  exact splitOn_unlines_append (fun l => notMem_lines) _

theorem lines_append (s t : List α) :
    lines sep (s ++ t) = lines sep s ++ lines sep (rest sep s ++ t) := by
  rw [lines, splitOn_append, List.dropLast_append_of_ne_nil (List.splitOn_ne_nil _ _)]
  rfl

theorem rest_append (s t : List α) : rest sep (s ++ t) = rest sep (rest sep s ++ t) := by
  simp only [rest, splitOn_append s t]
  exact List.getLast_append_of_ne_nil _ (List.splitOn_ne_nil _ _)

theorem count_unlines {ls : List (List α)} (h : ∀ l ∈ ls, sep ∉ l) :
    (unlines sep ls).count sep = ls.length := by
  induction ls with
  | nil => rfl
  | cons l ls ih =>
    have hl : l.count sep = 0 := List.count_eq_zero.mpr (h l List.mem_cons_self)
    have := ih fun m hm => h m (List.mem_cons_of_mem _ hm)
    rw [unlines] at this ⊢
    simp only [List.flatMap_cons, List.count_append, List.count_singleton_self,
      List.length_cons]
    omega

theorem length_lines (s : List α) : (lines sep s).length = s.count sep := by
  conv_rhs => rw [← unlines_lines_append_rest sep s, List.count_append]
  rw [count_unlines fun l => notMem_lines, List.count_eq_zero.mpr (notMem_rest s), Nat.add_zero]

theorem length_le_of_mem_lines {s l : List α} (h : l ∈ lines sep s) : l.length ≤ s.length := by
  obtain ⟨before, behind, hlines⟩ := List.append_of_mem h
  conv_rhs => rw [← unlines_lines_append_rest sep s, hlines, unlines, List.flatMap_append,
    List.flatMap_cons]
  simp only [List.length_append]
  omega

theorem infix_of_mem_splitOn {s l : List α} (h : l ∈ s.splitOn sep) : l <:+: s := by
  rw [splitOn_eq, List.mem_append, List.mem_singleton] at h
  rw [← unlines_lines_append_rest sep s]
  rcases h with h | rfl
  · obtain ⟨before, behind, hlines⟩ := List.append_of_mem h
    refine ⟨unlines sep before, sep :: (unlines sep behind ++ rest sep s), ?_⟩
    rw [hlines]
    simp [unlines]
  · exact (List.suffix_append _ _).isInfix

theorem lines_rest_inj {s t : List α} (hl : lines sep s = lines sep t)
    (hr : rest sep s = rest sep t) : s = t := by
  rw [← unlines_lines_append_rest sep s, hl, hr, unlines_lines_append_rest]

/-- A text without the separator stays on one line, wherever it stands. -/
theorem splitOn_around {x : List α} (hx : sep ∉ x) (s t : List α) :
    ∃ ls ms u v p q, (s ++ (x ++ t)).splitOn sep = ls ++ (u ++ (x ++ v)) :: ms ∧ s = p ++ u ∧
      t = v ++ q ∧ (∀ l ∈ ls, l <:+: s) ∧ ∀ m ∈ ms, m <:+: t := by
  have hs : s = unlines sep (lines sep s) ++ rest sep s := (unlines_lines_append_rest sep s).symm
  have hls : ∀ l ∈ lines sep s, l <:+: s := by
    intro l hl
    have hmem : l ∈ s.splitOn sep := by
      rw [splitOn_eq]
      exact List.mem_append_left _ hl
    exact infix_of_mem_splitOn hmem
  have hline {v : List α} (hv : sep ∉ v) : sep ∉ rest sep s ++ (x ++ v) := by
    simp only [List.mem_append, not_or]
    exact ⟨notMem_rest s, hx, hv⟩
  rw [splitOn_append]
  by_cases ht : sep ∈ t
  · obtain ⟨v, t', rfl, hv⟩ := List.eq_append_cons_of_mem ht
    refine ⟨_, t'.splitOn sep, _, v, _, sep :: t', ?_, hs, rfl, hls, ?_⟩
    · rw [← List.splitOn_append_cons_self_of_not_mem (hline hv) t']
      simp only [List.append_assoc]
    · intro m hm
      have hsuffix : t' <:+ v ++ sep :: t' := ⟨v ++ [sep], by simp⟩
      exact (infix_of_mem_splitOn hm).trans hsuffix.isInfix
  · refine ⟨_, [], _, t, _, [], ?_, hs, (List.append_nil t).symm, hls, by simp⟩
    rw [List.splitOn_eq_singleton (hline ht)]

end XfceLinux.Lib.Lines
