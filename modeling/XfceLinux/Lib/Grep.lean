import XfceLinux.Lib.Lines
import XfceLinux.Lib.Matches

/-!
# The matches that `grep -o` prints

`grep -o` prints the matches of an expression on each line. Where an expression can match in one
way only at each point, its matches are read off the text from the left: a match is printed
and the search goes on behind it (`texts_append`), a character at which nothing matches is
passed (`texts_skip`).
-/

namespace XfceLinux.Lib.Regex

open Text

/-! ## Expressions in a row -/

theorem mem_run_cat_lit {w : String} {rs : List Re} {c d : Cur} :
    d ∈ run (cat (lit w :: rs)) c ↔
      ∃ r, c.rest = w.toList ++ r ∧ d ∈ run (cat rs) (c.advance w.toList r) := by
  rw [mem_run_cat_cons]
  constructor
  · rintro ⟨e, he, hd⟩
    obtain ⟨r, hr, rfl⟩ := mem_run_lit.mp he
    exact ⟨r, hr, hd⟩
  · rintro ⟨r, hr, hd⟩
    exact ⟨_, mem_run_lit.mpr ⟨r, hr, rfl⟩, hd⟩

theorem mem_run_cat_star_set {p : Char → Bool} {rs : List Re} {c d : Cur} :
    d ∈ run (cat (.star (.set p) :: rs)) c ↔
      ∃ u r, c.rest = u ++ r ∧ (∀ x ∈ u, p x) ∧ d ∈ run (cat rs) (c.advance u r) := by
  rw [mem_run_cat_cons]
  constructor
  · rintro ⟨e, he, hd⟩
    obtain ⟨u, r, hur, hu, rfl⟩ := mem_run_star_set.mp he
    exact ⟨u, r, hur, hu, hd⟩
  · rintro ⟨u, r, hur, hu, hd⟩
    exact ⟨_, mem_run_star_set.mpr ⟨u, r, hur, hu, rfl⟩, hd⟩

theorem mem_run_cat_eos {rs : List Re} {c d : Cur} :
    d ∈ run (cat (.eos :: rs)) c ↔
      (c.rest = [] ∨ c.rest = ['\n']) ∧ d ∈ run (cat rs) c := by
  rw [mem_run_cat_cons]
  constructor
  · rintro ⟨e, he, hd⟩
    obtain ⟨heos, rfl⟩ := mem_run_eos.mp he
    exact ⟨heos, hd⟩
  · rintro ⟨heos, hd⟩
    exact ⟨c, mem_run_eos.mpr ⟨heos, rfl⟩, hd⟩

/-! ## The matches of a line -/

/-- The matches on one line. The longest match at a point has to be the first one there. -/
def texts (r : Re) (s : Str) : List Str := (findall (.group 0 r) s).map (·.group 0)

/-- `grep -o r` -/
def grep (r : Re) (lines : List Str) : List Str := lines.flatMap (texts r)

/-- `r` matches `w` in front of `rest` where `M w rest` holds, and only there. It has no choice,
and matches no empty text. -/
structure Takes (r : Re) (M : Str → Str → Prop) : Prop where
  mem : ∀ {first s d}, d ∈ run r ⟨first, s, []⟩ → ∃ w, M w d.rest ∧ s = w ++ d.rest
  run_ne_nil : ∀ first {w rest}, M w rest → run r ⟨first, w ++ rest, []⟩ ≠ []
  unique : ∀ {w rest w' rest'}, M w rest → M w' rest' → w ++ rest = w' ++ rest' → w = w'
  ne_nil : ∀ {w rest}, M w rest → w ≠ []

namespace Takes

variable {r : Re} {M : Str → Str → Prop} (h : Takes r M)

include h

/-- What is found at the start of a match. -/
theorem head?_append (first : Bool) {w rest : Str} (hw : M w rest) :
    ∃ c, (run (.group 0 r) ⟨first, w ++ rest, []⟩).head? = some c ∧ c.rest = rest ∧
      c.group 0 = w := by
  obtain ⟨d, ds, hrun⟩ := List.exists_cons_of_ne_nil (h.run_ne_nil first hw)
  obtain ⟨w', hw', hsplit⟩ := h.mem (hrun ▸ List.mem_cons_self)
  obtain rfl := h.unique hw hw' hsplit
  have hrest : d.rest = rest := (List.append_cancel_left hsplit).symm
  have htake : (w ++ rest).take ((w ++ rest).length - d.rest.length) = w := by
    rw [hrest, List.length_append, Nat.add_sub_cancel, List.take_left]
  refine ⟨{ d with groups := (0, w) :: d.groups }, ?_, hrest, rfl⟩
  rw [run, hrun, List.map_cons, List.head?_cons, htake]

theorem head?_none (first : Bool) {s : Str} (hs : ∀ w rest, s = w ++ rest → ¬ M w rest) :
    (run (.group 0 r) ⟨first, s, []⟩).head? = none := by
  have hrun : run r ⟨first, s, []⟩ = [] := by
    rw [List.eq_nil_iff_forall_not_mem]
    intro d hd
    obtain ⟨w, hw, hsplit⟩ := h.mem hd
    exact hs w d.rest hsplit hw
  rw [run, hrun, List.map_nil, List.head?_nil]

theorem texts_eq {m n : Nat} {first first' : Bool} {s : Str} (hm : s.length ≤ m)
    (hn : s.length ≤ n) : (findallFrom (.group 0 r) m first s).map (·.group 0) =
      (findallFrom (.group 0 r) n first' s).map (·.group 0) := by
  induction m generalizing n first first' s with
  | zero =>
    obtain rfl : s = [] := List.length_eq_zero_iff.mp (by omega)
    cases n <;> rfl
  | succ m ih =>
    cases s with
    | nil => cases n <;> rfl
    | cons y s =>
      rw [List.length_cons] at hm hn
      obtain ⟨n, rfl⟩ : ∃ k, n = k + 1 := ⟨n - 1, by omega⟩
      rw [findallFrom, findallFrom]
      by_cases hmatch : ∃ w rest, y :: s = w ++ rest ∧ M w rest
      · obtain ⟨w, rest, hsplit, hw⟩ := hmatch
        obtain ⟨c, hc, hrest, hgroup⟩ := h.head?_append first hw
        obtain ⟨c', hc', hrest', hgroup'⟩ := h.head?_append first' hw
        have hlength := congrArg List.length hsplit
        have hpos := List.length_pos_iff.mpr (h.ne_nil hw)
        rw [List.length_cons, List.length_append] at hlength
        rw [hsplit, hc, hc']
        simp only [List.map_cons, hgroup, hgroup', hrest, hrest']
        exact congrArg (w :: ·) (ih (by omega) (by omega))
      · have hnone : ∀ w rest, y :: s = w ++ rest → ¬ M w rest := by
          intro w rest hsplit hw
          exact hmatch ⟨w, rest, hsplit, hw⟩
        rw [h.head?_none first hnone, h.head?_none first' hnone]
        exact ih (by omega) (by omega)

theorem texts_append {w rest : Str} (hw : M w rest) :
    texts r (w ++ rest) = w :: texts r rest := by
  obtain ⟨c, hc, hrest, hgroup⟩ := h.head?_append true hw
  obtain ⟨y, w', rfl⟩ := List.exists_cons_of_ne_nil (h.ne_nil hw)
  rw [texts, findall, List.cons_append, List.length_cons, findallFrom]
  rw [List.cons_append] at hc
  rw [hc, List.map_cons, hgroup, hrest]
  exact congrArg _ (h.texts_eq (by simp) le_rfl)

theorem texts_cons {y : Char} {s : Str} (hs : ∀ w rest, y :: s = w ++ rest → ¬ M w rest) :
    texts r (y :: s) = texts r s := by
  rw [texts, findall, List.length_cons, findallFrom, h.head?_none true hs]
  exact h.texts_eq le_rfl le_rfl

/-- A text in which no match begins is passed. -/
theorem texts_skip {u s : Str}
    (hu : ∀ u₁ u₂ w rest, u = u₁ ++ u₂ → u₂ ≠ [] → u₂ ++ s = w ++ rest → ¬ M w rest) :
    texts r (u ++ s) = texts r s := by
  induction u with
  | nil => rfl
  | cons y u ih =>
    have hhere : ∀ w rest, y :: (u ++ s) = w ++ rest → ¬ M w rest :=
      fun w rest => hu [] (y :: u) w rest rfl (List.cons_ne_nil y u)
    rw [List.cons_append, h.texts_cons hhere]
    apply ih
    rintro u₁ u₂ w rest rfl
    exact hu (y :: u₁) u₂ w rest rfl

theorem texts_eq_nil {s : Str} (hs : ∀ u w rest, s = u ++ w ++ rest → ¬ M w rest) :
    texts r s = [] := by
  have hskip : texts r (s ++ []) = texts r [] := by
    apply h.texts_skip
    rintro u₁ u₂ w rest rfl - hsplit
    rw [List.append_nil] at hsplit
    exact hs u₁ w rest (by rw [hsplit, List.append_assoc])
  rwa [List.append_nil] at hskip

end Takes

end XfceLinux.Lib.Regex
