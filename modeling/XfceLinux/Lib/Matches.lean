import XfceLinux.Lib.Regex

/-!
# What a regular expression consumes

Membership in `run r c` for the constructors of `Re`: which text each of them consumes
from the point `c`. Repetition is covered for one-character bodies, where `a*` consumes
any run of characters of the class (`mem_run_star_set`).
-/

namespace XfceLinux.Lib.Regex

open Text

/-- The point behind `u`, with `r` ahead. -/
def Cur.advance (c : Cur) (u r : Str) : Cur := ⟨c.first && u.isEmpty, r, c.groups⟩

@[simp] theorem advance_rest (c : Cur) (u r : Str) : (c.advance u r).rest = r := rfl

@[simp] theorem advance_advance (c : Cur) (u v r s : Str) :
    (c.advance u r).advance v s = c.advance (u ++ v) s := by
  cases u <;> simp [Cur.advance]

@[simp] theorem advance_nil (c : Cur) : c.advance [] c.rest = c := by simp [Cur.advance]

theorem advance_of_rest_nil {c : Cur} (h : c.rest = []) : c.advance [] [] = c := by
  have := advance_nil c
  rwa [h] at this

@[simp] theorem mem_run_eps {c d : Cur} : d ∈ run .eps c ↔ d = c := by simp [run]

@[simp] theorem mem_run_bos {c d : Cur} : d ∈ run .bos c ↔ c.first ∧ d = c := by
  unfold run
  split <;> simp [*]

@[simp] theorem mem_run_eos {c d : Cur} :
    d ∈ run .eos c ↔ (c.rest = [] ∨ c.rest = ['\n']) ∧ d = c := by
  unfold run
  split <;> simp [*]

@[simp] theorem mem_run_seq {a b : Re} {c d : Cur} :
    d ∈ run (.seq a b) c ↔ ∃ e ∈ run a c, d ∈ run b e := by
  simp [run]

@[simp] theorem mem_run_alt {a b : Re} {c d : Cur} :
    d ∈ run (.alt a b) c ↔ d ∈ run a c ∨ d ∈ run b c := by
  simp [run]

@[simp] theorem mem_run_opt {a : Re} {c d : Cur} :
    d ∈ run (opt a) c ↔ d ∈ run a c ∨ d = c := by
  simp [opt]

@[simp] theorem mem_run_group {n : Nat} {a : Re} {c d : Cur} :
    d ∈ run (.group n a) c ↔ ∃ e ∈ run a c,
      d = { e with groups := (n, c.rest.take (c.rest.length - e.rest.length)) :: e.groups } := by
  simp [run, eq_comm]

theorem mem_run_set {p : Char → Bool} {c d : Cur} :
    d ∈ run (.set p) c ↔ ∃ x r, c.rest = x :: r ∧ p x ∧ d = c.advance [x] r := by
  unfold run
  split
  · rename_i h
    simp [h]
  · rename_i x xs h
    constructor
    · intro hd
      split at hd
      · exact ⟨x, xs, h, ‹_›, by simpa [Cur.advance] using hd⟩
      · cases hd
    · rintro ⟨y, r, hyr, hy, rfl⟩
      rw [h] at hyr
      cases hyr
      simp [hy, Cur.advance]

theorem mem_greedy_set {p : Char → Bool} {n : Nat} {c d : Cur} (hn : c.rest.length ≤ n) :
    d ∈ greedy (run (.set p)) n c ↔
      ∃ u r, c.rest = u ++ r ∧ (∀ x ∈ u, p x) ∧ d = c.advance u r := by
  induction n generalizing c with
  | zero =>
    have hnil : c.rest = [] := List.length_eq_zero_iff.mp (by omega)
    constructor
    · intro h
      rw [greedy, List.mem_singleton] at h
      exact ⟨[], [], by simp [hnil], by simp, h.trans (advance_of_rest_nil hnil).symm⟩
    · rintro ⟨u, r, hur, -, rfl⟩
      rw [hnil, eq_comm, List.append_eq_nil_iff] at hur
      obtain ⟨rfl, rfl⟩ := hur
      rw [advance_of_rest_nil hnil]
      exact List.mem_singleton.mpr rfl
  | succ n ih =>
    simp only [greedy, List.mem_append, List.mem_flatMap, List.mem_filter, mem_run_set,
      List.mem_singleton, decide_eq_true_eq]
    constructor
    · rintro (⟨e, ⟨⟨x, xs, hrest, hx, rfl⟩, -⟩, hd⟩ | rfl)
      · rw [ih (by simp only [hrest, List.length_cons] at hn; simpa using hn)] at hd
        obtain ⟨u, r, hur, hu, rfl⟩ := hd
        refine ⟨x :: u, r, by simp [hrest, ← hur], ?_, by simp⟩
        rintro y (_ | ⟨_, hy⟩)
        exacts [hx, hu y hy]
      · exact ⟨[], d.rest, rfl, by simp, by simp⟩
    · rintro ⟨u, r, hur, hu, rfl⟩
      cases u with
      | nil =>
        right
        rw [List.nil_append] at hur
        rw [← hur, advance_nil]
      | cons x u =>
        left
        refine ⟨c.advance [x] (u ++ r),
          ⟨⟨x, u ++ r, hur, hu x List.mem_cons_self, rfl⟩, by simp [hur]⟩, ?_⟩
        rw [ih (by simp only [hur, List.cons_append, List.length_cons] at hn; simpa using hn)]
        exact ⟨u, r, rfl, fun y hy => hu y (List.mem_cons_of_mem _ hy), by simp⟩

theorem mem_run_star_set {p : Char → Bool} {c d : Cur} :
    d ∈ run (.star (.set p)) c ↔
      ∃ u r, c.rest = u ++ r ∧ (∀ x ∈ u, p x) ∧ d = c.advance u r := by
  rw [run]
  exact mem_greedy_set le_rfl

theorem mem_run_plus_set {p : Char → Bool} {c d : Cur} :
    d ∈ run (plus (.set p)) c ↔
      ∃ u r, c.rest = u ++ r ∧ u ≠ [] ∧ (∀ x ∈ u, p x) ∧ d = c.advance u r := by
  simp only [plus, mem_run_seq, mem_run_set, mem_run_star_set]
  constructor
  · rintro ⟨e, ⟨x, xs, hrest, hx, rfl⟩, u, r, hur, hu, rfl⟩
    refine ⟨x :: u, r, by simpa [hrest] using hur, by simp, ?_, by simp⟩
    rintro y (_ | ⟨_, hy⟩)
    exacts [hx, hu y hy]
  · rintro ⟨u, r, hur, hne, hu, rfl⟩
    cases u with
    | nil => exact absurd rfl hne
    | cons x u =>
      exact ⟨c.advance [x] (u ++ r), ⟨x, u ++ r, hur, hu x List.mem_cons_self, rfl⟩,
        u, r, rfl, fun y hy => hu y (List.mem_cons_of_mem _ hy), by simp⟩

theorem mem_run_lit {s : String} {c d : Cur} :
    d ∈ run (lit s) c ↔ ∃ r, c.rest = s.toList ++ r ∧ d = c.advance s.toList r := by
  unfold lit
  generalize s.toList = l
  induction l generalizing c with
  | nil =>
    simp only [List.foldr_nil, mem_run_eps, List.nil_append]
    constructor
    · rintro rfl
      exact ⟨d.rest, rfl, by simp⟩
    · rintro ⟨r, hr, rfl⟩
      rw [← hr, advance_nil]
  | cons x l ih =>
    simp only [List.foldr_cons, mem_run_seq, mem_run_set, beq_iff_eq]
    constructor
    · rintro ⟨e, ⟨y, ys, hrest, rfl, rfl⟩, he⟩
      obtain ⟨r, hr, rfl⟩ := ih.mp he
      exact ⟨r, by simpa [hrest] using hr, by simp⟩
    · rintro ⟨r, hr, rfl⟩
      exact ⟨c.advance [x] (l ++ r), ⟨x, l ++ r, hr, rfl, rfl⟩, ih.mpr ⟨r, rfl, by simp⟩⟩

@[simp] theorem mem_run_cat_nil {c d : Cur} : d ∈ run (cat []) c ↔ d = c := by simp [cat]

@[simp] theorem mem_run_cat_cons {r : Re} {rs : List Re} {c d : Cur} :
    d ∈ run (cat (r :: rs)) c ↔ ∃ e ∈ run r c, d ∈ run (cat rs) e := by
  simp [cat]

/-- Classes in a row consume a character each. -/
theorem mem_run_classes {ps : List (Char → Bool)} {c d : Cur} :
    d ∈ run (cat (ps.map .set)) c ↔
      ∃ u r, c.rest = u ++ r ∧ List.Forall₂ (fun p x => p x = true) ps u ∧
        d = c.advance u r := by
  induction ps generalizing c with
  | nil =>
    rw [List.map_nil, mem_run_cat_nil]
    constructor
    · rintro rfl
      exact ⟨[], d.rest, rfl, .nil, (advance_nil d).symm⟩
    · rintro ⟨u, r, hur, hu, rfl⟩
      cases hu
      rw [List.nil_append] at hur
      rw [← hur, advance_nil]
  | cons p ps ih =>
    rw [List.map_cons, mem_run_cat_cons]
    constructor
    · rintro ⟨e, he, hd⟩
      obtain ⟨x, xs, hrest, hx, rfl⟩ := mem_run_set.mp he
      obtain ⟨u, r, hur, hu, rfl⟩ := ih.mp hd
      rw [advance_rest] at hur
      exact ⟨x :: u, r, by rw [hrest, hur, List.cons_append], .cons hx hu, by simp⟩
    · rintro ⟨w, r, hwr, hw, rfl⟩
      cases hw with
      | cons hx hu =>
        rename_i x u
        refine ⟨c.advance [x] (u ++ r), mem_run_set.mpr ⟨x, u ++ r, hwr, hx, rfl⟩, ?_⟩
        exact ih.mpr ⟨u, r, rfl, hu, by simp⟩

theorem matchStart_isSome {r : Re} {s : Str} :
    (matchStart r s).isSome ↔ ∃ d, d ∈ run r ⟨true, s, []⟩ := by
  unfold matchStart
  cases run r ⟨true, s, []⟩ <;> simp

theorem prefix_of_run {w : String} {rs : List Re} {c d : Cur}
    (h : d ∈ run (cat (lit w :: rs)) c) : w.toList <+: c.rest := by
  obtain ⟨e, he, -⟩ := mem_run_cat_cons.mp h
  obtain ⟨r, hr, -⟩ := mem_run_lit.mp he
  exact ⟨r, hr.symm⟩

/-- An expression is found if it matches at some point of the text. -/
theorem searchFrom_isSome {r : Re} {first : Bool} {s : Str} :
    (searchFrom r first s).isSome = true ↔
      ∃ u v, s = u ++ v ∧ ∃ d, d ∈ run r ⟨first && u.isEmpty, v, []⟩ := by
  induction s generalizing first with
  | nil =>
    have hhere : (searchFrom r first []).isSome = true ↔ ∃ d, d ∈ run r ⟨first, [], []⟩ := by
      unfold searchFrom
      cases run r ⟨first, [], []⟩ <;> simp
    rw [hhere]
    constructor
    · intro h
      exact ⟨[], [], rfl, by simpa using h⟩
    · rintro ⟨u, v, huv, h⟩
      obtain ⟨rfl, rfl⟩ := List.append_eq_nil_iff.mp huv.symm
      simpa using h
  | cons c s ih =>
    have hhere : (searchFrom r first (c :: s)).isSome = true ↔
        (∃ d, d ∈ run r ⟨first, c :: s, []⟩) ∨ (searchFrom r false s).isSome = true := by
      conv_lhs => unfold searchFrom
      cases run r ⟨first, c :: s, []⟩ <;> simp
    rw [hhere, ih]
    constructor
    · rintro (h | ⟨u, v, rfl, h⟩)
      · exact ⟨[], c :: s, rfl, by simpa using h⟩
      · exact ⟨c :: u, v, rfl, by simpa using h⟩
    · rintro ⟨u, v, huv, h⟩
      cases u with
      | nil =>
        left
        rw [List.nil_append] at huv
        rw [huv]
        simpa using h
      | cons b u =>
        right
        exact ⟨u, v, (List.cons.inj huv).2, by simpa using h⟩

/-- An expression that starts with a literal is only found where the literal stands. -/
theorem infix_of_search {w : String} {rs : List Re} {s : Str}
    (h : (search (cat (lit w :: rs)) s).isSome) : w.toList <:+: s := by
  obtain ⟨u, v, rfl, d, hd⟩ := searchFrom_isSome.mp h
  exact (prefix_of_run hd).isInfix.trans (List.suffix_append u v).isInfix

theorem sub_eq_self {r : Re} {s : Str}
    (h : ∀ x ∈ s, ∀ first t, run r ⟨first, x :: t, []⟩ = []) (repl : Str) :
    sub r repl s = s := by
  have hFrom : ∀ (t : Str) (n : Nat) (first : Bool), (∀ x ∈ t, x ∈ s) →
      subFrom r repl n first t = t := by
    intro t
    induction t with
    | nil =>
      intro n first _
      cases n <;> rfl
    | cons x t ih =>
      intro n first ht
      cases n with
      | zero => rfl
      | succ n =>
        rw [subFrom, h x (ht x List.mem_cons_self)]
        exact congrArg (x :: ·) (ih n false fun y hy => ht y (List.mem_cons_of_mem x hy))
  exact hFrom s s.length true fun _ hx => hx

end XfceLinux.Lib.Regex
