import XfceLinux.Lib.Search
import XfceLinux.Lib.Text

/-!
# Pathname expansion

The shell expands a word with `*` and `[a-z]` to the paths that it matches, component by
component, and leaves it as it is when there are none. The star of a component matches no
leading dot. Directories are read by their path, so that a component without special
characters need not be listed.
-/

namespace XfceLinux.Lib.Glob

open Text

/-! ## Patterns -/

inductive Item where
  | char (c : Char)
  /-- `*` -/
  | star
  /-- `[lo-hi]` -/
  | range (lo hi : Char)
deriving DecidableEq

abbrev Pattern := List Item

/-- A pattern without special characters. -/
def lit (w : String) : Pattern := w.toList.map .char

/-- `fnmatch` -/
def fits : Pattern → Str → Bool
  | [], s => s.isEmpty
  | .star :: p, s => s.tails.any (fits p)
  | .char c :: p, x :: s => x == c && fits p s
  | .range lo hi :: p, x :: s => lo ≤ x && x ≤ hi && fits p s
  | _ :: _, [] => false

/-- The pattern matches the name of a directory entry. -/
def lists (p : Pattern) (name : Str) : Bool :=
  fits p name && (name.head? != some '.' || p.head? == some (.char '.'))

theorem fits_nil {s : Str} : fits [] s = true ↔ s = [] := by
  rw [fits, List.isEmpty_iff]

theorem fits_star {p : Pattern} {s : Str} :
    fits (.star :: p) s = true ↔ ∃ t, t <:+ s ∧ fits p t = true := by
  rw [fits, List.any_eq_true]
  simp only [List.mem_tails]

theorem fits_char {c : Char} {p : Pattern} {s : Str} :
    fits (.char c :: p) s = true ↔ ∃ t, s = c :: t ∧ fits p t = true := by
  cases s with
  | nil =>
    refine iff_of_false (by simp [fits]) ?_
    rintro ⟨t, ht, -⟩
    cases ht
  | cons x s =>
    rw [fits, Bool.and_eq_true, beq_iff_eq]
    constructor
    · rintro ⟨rfl, hs⟩
      exact ⟨s, rfl, hs⟩
    · rintro ⟨t, ht, hfits⟩
      obtain ⟨rfl, rfl⟩ := List.cons.inj ht
      exact ⟨rfl, hfits⟩

theorem fits_lit_append {w : String} {p : Pattern} {s : Str} :
    fits (lit w ++ p) s = true ↔ ∃ t, s = w.toList ++ t ∧ fits p t = true := by
  rw [lit]
  generalize w.toList = cs
  induction cs generalizing s with
  | nil => simp
  | cons c cs ih =>
    rw [List.map_cons, List.cons_append, fits_char]
    simp only [ih]
    constructor
    · rintro ⟨_, rfl, t, rfl, ht⟩
      exact ⟨t, rfl, ht⟩
    · rintro ⟨t, rfl, ht⟩
      exact ⟨cs ++ t, rfl, t, rfl, ht⟩

theorem fits_lit {w : String} {s : Str} : fits (lit w) s = true ↔ s = w.toList := by
  rw [← List.append_nil (lit w), fits_lit_append]
  simp [fits_nil]

/-- `*suffix` -/
theorem fits_star_lit {w : String} {s : Str} :
    fits (.star :: lit w) s = true ↔ w.toList <:+ s := by
  rw [fits_star]
  constructor
  · rintro ⟨t, ht, hfits⟩
    rwa [← fits_lit.mp hfits]
  · intro h
    exact ⟨w.toList, h, fits_lit.mpr rfl⟩

/-- `front*suffix` matches no more than `*suffix`. -/
theorem suffix_of_fits {front w : String} {s : Str}
    (h : fits (lit front ++ .star :: lit w) s = true) : w.toList <:+ s := by
  obtain ⟨t, rfl, ht⟩ := fits_lit_append.mp h
  exact (fits_star_lit.mp ht).trans (List.suffix_append _ _)

/-- A pattern that starts with a star or a character other than the dot skips hidden names. -/
theorem lists_iff {p : Pattern} (hp : p.head? ≠ some (.char '.')) {name : Str} :
    lists p name = true ↔ fits p name = true ∧ name.head? ≠ some '.' := by
  rw [lists, Bool.and_eq_true, Bool.or_eq_true, bne_iff_ne, beq_iff_eq, or_iff_left hp]

/-! ## Words -/

inductive Component where
  | name (w : Str)
  | glob (p : Pattern)

/-- A word whose last component is a pattern. -/
structure Word where
  dirs : List Component
  last : Pattern

def Item.text : Item → Str
  | .char c => [c]
  | .star => ['*']
  | .range lo hi => ['[', lo, '-', hi, ']']

def Component.text : Component → Str
  | .name w => w
  | .glob p => p.flatMap Item.text

/-- The word as it is written, behind `base`. -/
def Word.text (w : Word) (base : Str) : Str :=
  base ++ (w.dirs ++ [Component.glob w.last]).flatMap fun c => '/' :: c.text

variable (names : Str → List Str)

/-- The directories that the components lead to; `names` lists the directory at a path. -/
def directories (base : Str) : List Component → List Str
  | [] => [base]
  | .name w :: cs => directories (base ++ '/' :: w) cs
  | .glob p :: cs =>
    ((names base).filter (lists p)).flatMap fun n => directories (base ++ '/' :: n) cs

/-- The paths that match the word. -/
def Word.paths (w : Word) (base : Str) : List Str :=
  (directories names base w.dirs).flatMap fun d =>
    ((names d).filter (lists w.last)).map fun n => d ++ '/' :: n

/-- What the word stands for: the paths in order, or the word itself. -/
def Word.expand (w : Word) (base : Str) : List Str :=
  if w.paths names base = [] then [w.text base] else Search.sortOn id (w.paths names base)

variable {names}

theorem mem_paths {w : Word} {base path : Str} :
    path ∈ w.paths names base ↔ ∃ d ∈ directories names base w.dirs,
      ∃ n ∈ names d, lists w.last n = true ∧ path = d ++ '/' :: n := by
  simp only [Word.paths, List.mem_flatMap, List.mem_map, List.mem_filter, and_assoc, eq_comm]

/-- No path that matches is left out. -/
theorem mem_expand_of_mem_paths {w : Word} {base path : Str} (h : path ∈ w.paths names base) :
    path ∈ w.expand names base := by
  rw [Word.expand, if_neg (List.ne_nil_of_mem h)]
  exact (Search.perm_sortOn id _).mem_iff.mpr h

end XfceLinux.Lib.Glob
