import XfceLinux.Lib.Lines
import XfceLinux.Lib.Text

/-!
# Words and lines of a text

`str.split()` and `str.splitlines()`. The words of a text are its pieces between white
space that are not empty. `splitlines` ends a line at more characters than the newline;
up to empty lines it is the split at each of them (`sameLines_splitlines`).
-/

namespace XfceLinux.Lib.Text

/-- A character at which `str.splitlines` ends a line. -/
def isLineBreak (c : Char) : Bool :=
  let n := c.toNat
  (10 ≤ n && n ≤ 13) || (28 ≤ n && n ≤ 30) || n == 133 || n == 8232 || n == 8233

/-- `s.split()` -/
def words (s : Str) : List Str := (s.splitOnP isSpace).filter (· ≠ [])

/-- `s.splitlines()` -/
def splitlines : Str → List Str
  | [] => []
  | '\r' :: '\n' :: s => [] :: splitlines s
  | c :: s =>
    if isLineBreak c then [] :: splitlines s
    else
      match splitlines s with
      | [] => [[c]]
      | l :: ls => (c :: l) :: ls

/-- The newlines of a text file or of a pipe in text mode. -/
def universalNewlines : Str → Str
  | [] => []
  | '\r' :: '\n' :: s => '\n' :: universalNewlines s
  | c :: s => (if c = '\r' then '\n' else c) :: universalNewlines s

theorem isSpace_of_isLineBreak {c : Char} (h : isLineBreak c = true) : isSpace c = true := by
  simp only [isLineBreak, isSpace, Bool.or_eq_true, Bool.and_eq_true, decide_eq_true_eq,
    beq_iff_eq] at h ⊢
  omega

/-! ## Words -/

theorem forall_of_mem_splitOnP {α : Type*} {p : α → Bool} {s l : List α}
    (h : l ∈ s.splitOnP p) : ∀ a ∈ l, p a = false := by
  induction s generalizing l with
  | nil =>
    obtain rfl : l = [] := by simpa using h
    simp
  | cons b s ih =>
    rw [List.splitOnP_cons_eq_if_modifyHead] at h
    split at h
    · rcases List.mem_cons.mp h with rfl | h
      · simp
      · exact ih h
    · rename_i hb
      obtain ⟨hd, tl, htl⟩ := List.exists_cons_of_ne_nil (List.splitOnP_ne_nil p s)
      rw [htl, List.modifyHead_cons] at h
      rcases List.mem_cons.mp h with rfl | h
      · intro a ha
        rcases List.mem_cons.mp ha with rfl | ha
        · exact Bool.eq_false_iff.mpr hb
        · exact ih (htl ▸ List.mem_cons_self) a ha
      · exact ih (htl ▸ List.mem_cons_of_mem hd h)

theorem mem_of_mem_splitOnP {α : Type*} {p : α → Bool} {s l : List α} (h : l ∈ s.splitOnP p)
    {a : α} (ha : a ∈ l) : a ∈ s := by
  induction s generalizing l with
  | nil =>
    obtain rfl : l = [] := by simpa using h
    cases ha
  | cons b s ih =>
    rw [List.splitOnP_cons_eq_if_modifyHead] at h
    split at h
    · rcases List.mem_cons.mp h with rfl | h
      · cases ha
      · exact List.mem_cons_of_mem b (ih h ha)
    · obtain ⟨hd, tl, htl⟩ := List.exists_cons_of_ne_nil (List.splitOnP_ne_nil p s)
      rw [htl, List.modifyHead_cons] at h
      rcases List.mem_cons.mp h with rfl | h
      · rcases List.mem_cons.mp ha with rfl | ha
        · exact List.mem_cons_self
        · exact List.mem_cons_of_mem b (ih (htl ▸ List.mem_cons_self) ha)
      · exact List.mem_cons_of_mem b (ih (htl ▸ List.mem_cons_of_mem hd h) ha)

/-- A text without separators goes in front of the first piece. -/
theorem splitOnP_append_of_forall {α : Type*} {p : α → Bool} {w : List α}
    (h : ∀ a ∈ w, p a = false) (s : List α) :
    (w ++ s).splitOnP p = (s.splitOnP p).modifyHead (w ++ ·) := by
  induction w with
  | nil =>
    obtain ⟨l, ls, hl⟩ := List.exists_cons_of_ne_nil (List.splitOnP_ne_nil p s)
    rw [List.nil_append, hl]
    rfl
  | cons a w ih =>
    rw [List.cons_append, List.splitOnP_cons_eq_if_modifyHead,
      if_neg (by simp [h a List.mem_cons_self]), ih fun b hb => h b (List.mem_cons_of_mem a hb),
      List.modifyHead_modifyHead]
    rfl

theorem of_mem_words {s w : Str} (h : w ∈ words s) : w ≠ [] ∧ ∀ c ∈ w, isSpace c = false := by
  obtain ⟨hw, hne⟩ := List.mem_filter.mp h
  exact ⟨of_decide_eq_true hne, forall_of_mem_splitOnP hw⟩

theorem words_append_cons {c : Char} (hc : isSpace c = true) (s t : Str) :
    words (s ++ c :: t) = words s ++ words t := by
  rw [words, List.splitOnP_append_cons s t hc, List.filter_append]
  rfl

theorem words_of_forall {s : Str} (h : ∀ c ∈ s, isSpace c = false) (hne : s ≠ []) :
    words s = [s] := by
  rw [words, List.splitOnP_eq_singleton h, List.filter_cons_of_pos (by simpa using hne),
    List.filter_nil]

theorem words_append_space {w : Str} (h : ∀ c ∈ w, isSpace c = true) (s : Str) :
    words (s ++ w) = words s := by
  induction w generalizing s with
  | nil => rw [List.append_nil]
  | cons c w ih =>
    have hw : words w = [] := by
      exact ih (fun d hd => h d (List.mem_cons_of_mem c hd)) []
    rw [words_append_cons (h c List.mem_cons_self), hw, List.append_nil]

theorem words_space_append {w : Str} (h : ∀ c ∈ w, isSpace c = true) (s : Str) :
    words (w ++ s) = words s := by
  induction w with
  | nil => rfl
  | cons c w ih =>
    rw [List.cons_append, ← List.nil_append (c :: (w ++ s)),
      words_append_cons (h c List.mem_cons_self),
      ih fun d hd => h d (List.mem_cons_of_mem c hd)]
    rfl

/-- A text with any other character has a word. -/
theorem words_ne_nil {s : Str} {c : Char} (h : c ∈ s) (hc : isSpace c = false) : words s ≠ [] := by
  induction s with
  | nil => cases h
  | cons d s ih =>
    cases hd : isSpace d with
    | true =>
      have hmem : c ∈ s := by
        rcases List.mem_cons.mp h with rfl | h
        · rw [hd] at hc
          cases hc
        · exact h
      have hwords : words (d :: s) = words s :=
        words_space_append (w := [d]) (by simp [hd]) s
      rw [hwords]
      exact ih hmem
    | false =>
      obtain ⟨w, ws, hw⟩ := List.exists_cons_of_ne_nil (List.splitOnP_ne_nil isSpace s)
      rw [words, List.splitOnP_cons_eq_if_modifyHead, hd, hw]
      simp

/-- `rstrip` takes white space off the end only. -/
theorem exists_rstrip_append (p : Char → Bool) (s : Str) :
    ∃ w, (∀ c ∈ w, p c = true) ∧ s = rstrip p s ++ w := by
  refine ⟨(s.reverse.takeWhile p).reverse, ?_, ?_⟩
  · intro c hc
    exact List.mem_takeWhile_imp (List.mem_reverse.mp hc)
  · rw [rstrip, ← List.reverse_append, List.takeWhile_append_dropWhile, List.reverse_reverse]

theorem words_rstrip (s : Str) : words (rstrip isSpace s) = words s := by
  obtain ⟨w, hw, hs⟩ := exists_rstrip_append isSpace s
  conv_rhs => rw [hs]
  exact (words_append_space hw _).symm

/-! ## Collapsed white space -/

/-- `' '.join(s.split())` -/
def collapse (s : Str) : Str := [' '].intercalate (words s)

theorem splitOnP_concat {α : Type*} {p : α → Bool} {a : α} (ha : p a = false) (s : List α) :
    ∃ ls w, s.splitOnP p = ls ++ [w] ∧ (s ++ [a]).splitOnP p = ls ++ [w ++ [a]] := by
  induction s with
  | nil =>
    refine ⟨[], [], rfl, ?_⟩
    rw [List.nil_append, List.splitOnP_cons_eq_if_modifyHead, if_neg (by simp [ha])]
    rfl
  | cons b s ih =>
    obtain ⟨ls, w, hs, hsa⟩ := ih
    rw [List.cons_append, List.splitOnP_cons_eq_if_modifyHead,
      List.splitOnP_cons_eq_if_modifyHead, hs, hsa]
    split
    · exact ⟨[] :: ls, w, rfl, rfl⟩
    · cases ls with
      | nil => exact ⟨[], b :: w, rfl, rfl⟩
      | cons l ls => exact ⟨(b :: l) :: ls, w, rfl, rfl⟩

/-- One more character extends the last word or begins a new one. -/
theorem collapse_concat {c : Char} (hc : isSpace c = false) (s : Str) :
    ∃ sep, (sep = [] ∨ sep = [' ']) ∧ collapse (s ++ [c]) = collapse s ++ sep ++ [c] := by
  obtain ⟨ls, w, hs, hsc⟩ := splitOnP_concat hc s
  have hwords : words s = ls.filter (· ≠ []) ++ if w = [] then [] else [w] := by
    rw [words, hs, List.filter_append]
    split <;> simp_all
  have hnext : words (s ++ [c]) = ls.filter (· ≠ []) ++ [w ++ [c]] := by
    rw [words, hsc, List.filter_append]
    simp
  rw [collapse, collapse, hnext, hwords, Lines.intercalate_append_singleton]
  split
  · rename_i hw
    rw [hw, List.append_nil, List.nil_append]
    rcases List.eq_nil_or_concat' (ls.filter (· ≠ [])) with hnil | ⟨ms, m, hms⟩
    · rw [hnil]
      exact ⟨[], .inl rfl, rfl⟩
    · refine ⟨[' '], .inr rfl, ?_⟩
      rw [hms, Lines.intercalate_append_singleton]
      simp [Lines.unlines]
  · refine ⟨[], .inl rfl, ?_⟩
    rw [Lines.intercalate_append_singleton, List.append_nil, List.append_assoc]

theorem collapse_concat_space {c : Char} (hc : isSpace c = true) (s : Str) :
    collapse (s ++ [c]) = collapse s := by
  rw [collapse, words_append_space (List.forall_mem_singleton.mpr hc), collapse]

/-- The collapsed text grows with the text. -/
theorem prefix_collapse (s t : Str) : collapse s <+: collapse (s ++ t) := by
  induction t using List.reverseRecOn with
  | nil => rw [List.append_nil]
  | append_singleton t c ih =>
    rw [← List.append_assoc]
    apply ih.trans
    cases hc : isSpace c with
    | true => rw [collapse_concat_space hc]
    | false =>
      obtain ⟨sep, -, hsep⟩ := collapse_concat hc (s ++ t)
      rw [hsep, List.append_assoc]
      exact List.prefix_append _ _

/-- What holds no character of `w` is found without it. -/
theorem infix_of_infix_append {α : Type*} {pat s w : List α} (hpat : pat ≠ [])
    (hw : ∀ a ∈ w, a ∉ pat) (h : pat <:+: s ++ w) : pat <:+: s := by
  induction w using List.reverseRecOn with
  | nil => rwa [List.append_nil] at h
  | append_singleton w a ih =>
    apply ih fun b hb => hw b (List.mem_append_left _ hb)
    rw [← List.append_assoc] at h
    refine (List.infix_concat_iff.mp h).resolve_left ?_
    intro hsuffix
    obtain ⟨u, hu⟩ := hsuffix
    obtain ⟨v, b, rfl⟩ := (List.eq_nil_or_concat' pat).resolve_left hpat
    rw [← List.append_assoc] at hu
    have hb : b = a := by simpa using congrArg List.getLast? hu
    exact hw a (by simp) (by simp [hb])

theorem infix_collapse_of_append {pat s w : Str} (hpat : pat ≠ [])
    (hlast : ∀ v, pat ≠ v ++ [' ']) (hw : ∀ c ∈ w, c ∉ pat)
    (h : pat <:+: collapse (s ++ w)) : pat <:+: collapse s := by
  induction w using List.reverseRecOn with
  | nil => rwa [List.append_nil] at h
  | append_singleton w c ih =>
    apply ih fun d hd => hw d (List.mem_append_left _ hd)
    rw [← List.append_assoc] at h
    cases hc : isSpace c with
    | true => rwa [collapse_concat_space hc] at h
    | false =>
      obtain ⟨sep, hsep, hcollapse⟩ := collapse_concat hc (s ++ w)
      rw [hcollapse] at h
      have hbefore : pat <:+: collapse (s ++ w) ++ sep := by
        apply infix_of_infix_append hpat _ h
        exact List.forall_mem_singleton.mpr (hw c (by simp))
      rcases hsep with rfl | rfl
      · rwa [List.append_nil] at hbefore
      · refine (List.infix_concat_iff.mp hbefore).resolve_left ?_
        intro hsuffix
        obtain ⟨u, hu⟩ := hsuffix
        obtain ⟨v, b, rfl⟩ := (List.eq_nil_or_concat' pat).resolve_left hpat
        rw [← List.append_assoc] at hu
        have hb : b = ' ' := by simpa using congrArg List.getLast? hu
        exact hlast v (by rw [hb])

/-! ## Lines -/

/-- The same first line and, up to empty ones, the same other lines. -/
def SameLines (xs ys : List Str) : Prop :=
  xs.headD [] = ys.headD [] ∧ xs.tail.filter (!·.isEmpty) = ys.tail.filter (!·.isEmpty)

theorem SameLines.filter_eq {xs ys : List Str} (h : SameLines xs ys) :
    xs.filter (!·.isEmpty) = ys.filter (!·.isEmpty) := by
  obtain ⟨hhead, htail⟩ := h
  cases xs with
  | nil =>
    cases ys with
    | nil => rfl
    | cons l ls =>
      obtain rfl : [] = l := hhead
      simpa using htail
  | cons k ks =>
    cases ys with
    | nil =>
      obtain rfl : k = [] := hhead
      simpa using htail
    | cons l ls =>
      obtain rfl : k = l := hhead
      simp only [List.tail_cons] at htail
      simp only [List.filter_cons, htail]

/-- Up to empty lines, `splitlines` splits at every line break. -/
theorem sameLines_splitlines (s : Str) : SameLines (splitlines s) (s.splitOnP isLineBreak) := by
  fun_induction splitlines s with
  | case1 => exact ⟨rfl, rfl⟩
  | case2 s ih =>
    have hr : isLineBreak '\r' = true := by decide
    have hn : isLineBreak '\n' = true := by decide
    rw [List.splitOnP_cons_eq_if_modifyHead, if_pos hr, List.splitOnP_cons_eq_if_modifyHead,
      if_pos hn]
    exact ⟨rfl, by simpa using ih.filter_eq⟩
  | case3 c s _ hc ih =>
    rw [List.splitOnP_cons_eq_if_modifyHead, if_pos hc]
    exact ⟨rfl, ih.filter_eq⟩
  | case4 c s _ hc hs ih | case5 c s _ hc l ls hs ih =>
    rw [hs] at ih
    obtain ⟨m, ms, hm⟩ := List.exists_cons_of_ne_nil (List.splitOnP_ne_nil isLineBreak s)
    rw [hm] at ih
    rw [List.splitOnP_cons_eq_if_modifyHead, if_neg hc, hm, List.modifyHead_cons]
    exact ⟨congrArg (c :: ·) ih.1, ih.2⟩

/-- Up to empty lines, text mode reads the same lines. -/
theorem sameLines_universalNewlines (s : Str) :
    SameLines ((universalNewlines s).splitOnP isLineBreak) (s.splitOnP isLineBreak) := by
  have hr : isLineBreak '\r' = true := by decide
  have hn : isLineBreak '\n' = true := by decide
  fun_induction universalNewlines s with
  | case1 => exact ⟨rfl, rfl⟩
  | case2 s ih =>
    rw [List.splitOnP_cons_eq_if_modifyHead, if_pos hn, List.splitOnP_cons_eq_if_modifyHead,
      if_pos hr, List.splitOnP_cons_eq_if_modifyHead, if_pos hn]
    exact ⟨rfl, by simpa using ih.filter_eq⟩
  | case3 c s _ ih =>
    have hbreak : isLineBreak (if c = '\r' then '\n' else c) = isLineBreak c := by
      split
      · rename_i hc
        rw [hc, hr, hn]
      · rfl
    rw [List.splitOnP_cons_eq_if_modifyHead, List.splitOnP_cons_eq_if_modifyHead, hbreak]
    split
    · exact ⟨rfl, ih.filter_eq⟩
    · rename_i hc
      have hkept : (if c = '\r' then '\n' else c) = c := by
        rw [if_neg]
        rintro rfl
        exact hc hr
      obtain ⟨l, ls, hl⟩ := List.exists_cons_of_ne_nil
        (List.splitOnP_ne_nil isLineBreak (universalNewlines s))
      obtain ⟨m, ms, hm⟩ := List.exists_cons_of_ne_nil (List.splitOnP_ne_nil isLineBreak s)
      rw [hl, hm] at ih
      rw [hkept, hl, hm, List.modifyHead_cons, List.modifyHead_cons]
      exact ⟨congrArg (c :: ·) ih.1, ih.2⟩

theorem splitlines_newline {l : Str} (h : ∀ c ∈ l, isLineBreak c = false) (s : Str) :
    splitlines (l ++ '\n' :: s) = l :: splitlines s := by
  induction l with
  | nil => rfl
  | cons c l ih =>
    have hc := h c List.mem_cons_self
    have hr : c ≠ '\r' := by
      rintro rfl
      exact absurd hc (by decide)
    rw [List.cons_append, splitlines, ih fun d hd => h d (List.mem_cons_of_mem c hd), if_neg]
    · simp [hc]
    · intro _ hcr
      exact absurd hcr hr

/-- Lines written out with newlines are read back. -/
theorem splitlines_unlines {ls : List Str} (h : ∀ l ∈ ls, ∀ c ∈ l, isLineBreak c = false) :
    splitlines (Lines.unlines '\n' ls) = ls := by
  induction ls with
  | nil => rfl
  | cons l ls ih =>
    have hcons : Lines.unlines '\n' (l :: ls) = l ++ '\n' :: Lines.unlines '\n' ls := by
      simp [Lines.unlines]
    rw [hcons, splitlines_newline (h l List.mem_cons_self),
      ih fun m hm => h m (List.mem_cons_of_mem l hm)]

end XfceLinux.Lib.Text
