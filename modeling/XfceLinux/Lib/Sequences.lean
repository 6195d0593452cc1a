import XfceLinux.Lib.Matches

/-!
# Removing sequences from a text

An expression reads the sequences of a set when it matches each of them, and nothing else,
at the point where it begins. Each sequence begins with one character and holds no other
one. Removing the matches of such an expression takes out a sequence wherever it stands
(`sub_append_left`). When the text grows, what was kept in front of an unfinished sequence
is still kept (`sub_append`).
-/

namespace XfceLinux.Lib.Regex

open Text

/-- `r` matches exactly the sequences of `L`, which begin with `x`. -/
structure Reads (r : Re) (x : Char) (L : Str → Prop) : Prop where
  head : ∀ first s rest,
    (run r ⟨first, s, []⟩).head?.map Cur.rest = some rest ↔ ∃ w, L w ∧ s = w ++ rest
  starts : ∀ w, L w → ∃ t, w = x :: t ∧ x ∉ t

namespace Reads

variable {r : Re} {x : Char} {L : Str → Prop} (h : Reads r x L)

include h

theorem head?_eq_none {first : Bool} {s : Str} (hs : ∀ w, L w → ¬ w <+: s) :
    (run r ⟨first, s, []⟩).head? = none := by
  by_contra hsome
  obtain ⟨c, hc⟩ := Option.ne_none_iff_exists'.mp hsome
  obtain ⟨w, hw, hrest⟩ := (h.head first s c.rest).mp (by rw [hc, Option.map_some])
  exact hs w hw ⟨c.rest, hrest.symm⟩

theorem exists_head? (first : Bool) {w : Str} (hw : L w) (rest : Str) :
    ∃ c, (run r ⟨first, w ++ rest, []⟩).head? = some c ∧ c.rest = rest :=
  Option.map_eq_some_iff.mp ((h.head first (w ++ rest) rest).mpr ⟨w, hw, rfl⟩)

theorem subFrom_eq {m n : Nat} {first first' : Bool} {s : Str} (repl : Str)
    (hm : s.length ≤ m) (hn : s.length ≤ n) :
    subFrom r repl m first s = subFrom r repl n first' s := by
  induction m generalizing n first first' s with
  | zero =>
    obtain rfl : s = [] := List.length_eq_zero_iff.mp (by omega)
    cases n <;> rfl
  | succ m ih =>
    cases s with
    | nil => cases n <;> rfl
    | cons y s =>
      rw [List.length_cons] at hm hn
      obtain ⟨n, rfl⟩ : ∃ k, n = k + 1 := ⟨n - 1, by omega⟩
      by_cases hno : ∀ w, L w → ¬ w <+: y :: s
      · rw [subFrom, subFrom, h.head?_eq_none hno, h.head?_eq_none hno]
        exact congrArg (y :: ·) (ih (by omega) (by omega))
      · push Not at hno
        obtain ⟨w, hw, rest, hrest⟩ := hno
        obtain ⟨c, hc, hcrest⟩ := h.exists_head? first hw rest
        obtain ⟨d, hd, hdrest⟩ := h.exists_head? first' hw rest
        rw [hrest] at hc hd
        obtain ⟨t, rfl, -⟩ := h.starts w hw
        have hlength := congrArg List.length hrest
        rw [List.length_append, List.length_cons, List.length_cons] at hlength
        rw [subFrom, subFrom, hc, hd]
        dsimp only
        rw [hcrest, hdrest]
        exact congrArg (repl ++ ·) (ih (by omega) (by omega))

/-- A sequence is taken out. -/
theorem sub_append_left {w : Str} (hw : L w) (repl rest : Str) :
    sub r repl (w ++ rest) = repl ++ sub r repl rest := by
  obtain ⟨c, hc, hcrest⟩ := h.exists_head? true hw rest
  obtain ⟨t, rfl, -⟩ := h.starts w hw
  rw [List.cons_append] at hc ⊢
  rw [sub, List.length_cons, subFrom, hc]
  dsimp only
  rw [hcrest]
  apply congrArg (repl ++ ·)
  apply h.subFrom_eq
  · rw [List.length_append]
    omega
  · exact le_rfl

/-- A character at which no sequence stands is kept. -/
theorem sub_cons {y : Char} {s : Str} (hno : ∀ w, L w → ¬ w <+: y :: s) (repl : Str) :
    sub r repl (y :: s) = y :: sub r repl s := by
  rw [sub, List.length_cons, subFrom, h.head?_eq_none hno]
  exact congrArg (y :: ·) (h.subFrom_eq repl le_rfl le_rfl)

theorem not_prefix_cons {y : Char} (hy : y ≠ x) {s w : Str} (hw : L w) : ¬ w <+: y :: s := by
  obtain ⟨t, rfl, -⟩ := h.starts w hw
  rintro ⟨u, hu⟩
  exact hy (List.cons.inj hu).1.symm

theorem sub_cons_of_ne {y : Char} (hy : y ≠ x) (repl s : Str) :
    sub r repl (y :: s) = y :: sub r repl s :=
  h.sub_cons (fun _ hw => h.not_prefix_cons hy hw) repl

theorem sub_of_notMem {s : Str} (hs : x ∉ s) (repl : Str) : sub r repl s = s := by
  induction s with
  | nil => rfl
  | cons y s ih =>
    have hy : y ≠ x := fun hyx => hs (hyx ▸ List.mem_cons_self)
    rw [h.sub_cons_of_ne hy, ih fun hmem => hs (List.mem_cons_of_mem y hmem)]

/-- **What is kept of a growing text.** All that is kept of `s` is kept in front of more
text, up to an unfinished sequence at the end of `s`. -/
theorem sub_append (s t : Str) : ∃ kept tail, sub r [] s = kept ++ tail ∧
    kept <+: sub r [] (s ++ t) ∧ (tail = [] ∨ ∃ w, L w ∧ tail <+: w ∧ tail ≠ w) := by
  induction hn : s.length using Nat.strong_induction_on generalizing s with
  | _ n ih =>
    cases s with
    | nil => exact ⟨[], [], rfl, List.nil_prefix, .inl rfl⟩
    | cons y s =>
      rw [List.length_cons] at hn
      by_cases hno : ∀ w, L w → ¬ w <+: y :: s
      · by_cases hno' : ∀ w, L w → ¬ w <+: y :: (s ++ t)
        · -- the character is kept, now and later
          obtain ⟨kept, tail, hsub, hkept, htail⟩ := ih s.length (by omega) s rfl
          refine ⟨y :: kept, tail, ?_, ?_, htail⟩
          · rw [h.sub_cons hno, hsub, List.cons_append]
          · rw [List.cons_append, h.sub_cons hno']
            exact List.cons_prefix_cons.mpr ⟨rfl, hkept⟩
        · -- a sequence begins here and ends in the new text
          push Not at hno'
          obtain ⟨w, hw, hprefix⟩ := hno'
          have hlong : y :: s <+: w := by
            have hs : y :: s <+: y :: (s ++ t) := ⟨t, rfl⟩
            exact (List.prefix_or_prefix_of_prefix hs hprefix).resolve_right (hno w hw)
          have hne : y :: s ≠ w := fun he => hno w hw (he ▸ List.prefix_rfl)
          refine ⟨[], y :: s, ?_, List.nil_prefix, .inr ⟨w, hw, hlong, hne⟩⟩
          obtain ⟨u, rfl, hu⟩ := h.starts w hw
          obtain ⟨rfl, hsu⟩ := List.cons_prefix_cons.mp hlong
          have hs : y ∉ s := fun hmem => hu (hsu.subset hmem)
          rw [h.sub_cons hno, h.sub_of_notMem hs, List.nil_append]
      · push Not at hno
        obtain ⟨w, hw, rest, hrest⟩ := hno
        obtain ⟨u, rfl, -⟩ := h.starts w hw
        have hlength := congrArg List.length hrest
        rw [List.length_append, List.length_cons, List.length_cons] at hlength
        obtain ⟨kept, tail, hsub, hkept, htail⟩ := ih rest.length (by omega) rest rfl
        refine ⟨kept, tail, ?_, ?_, htail⟩
        · rw [← hrest, h.sub_append_left hw, List.nil_append, hsub]
        · rw [← hrest, List.append_assoc, h.sub_append_left hw, List.nil_append]
          exact hkept

end Reads

/-! ## Bracketed sequences -/

/-- `w[p]*[q]` -/
def bracketed (w : String) (p q : Char → Bool) : Re := cat [lit w, .star (.set p), .set q]

/-- `w`, characters of `p` and one of `q` -/
def Bracketed (w : String) (p q : Char → Bool) (s : Str) : Prop :=
  ∃ body last, (∀ c ∈ body, p c = true) ∧ q last = true ∧ s = w.toList ++ body ++ [last]

theorem mem_run_bracketed {w : String} {p q : Char → Bool} {c d : Cur} :
    d ∈ run (bracketed w p q) c ↔
      ∃ s, Bracketed w p q s ∧ c.rest = s ++ d.rest ∧ d = c.advance s d.rest := by
  simp only [bracketed, mem_run_cat_cons, mem_run_cat_nil, mem_run_lit, mem_run_star_set,
    mem_run_set]
  constructor
  · rintro ⟨_, ⟨r, hw, rfl⟩, _, ⟨body, r', hbody, hp, rfl⟩, _, ⟨last, rest, hlast, hq, rfl⟩, rfl⟩
    simp only [advance_rest] at hbody hlast
    refine ⟨w.toList ++ body ++ [last], ⟨body, last, hp, hq, rfl⟩, ?_, by simp⟩
    rw [hw, hbody, hlast]
    simp
  · rintro ⟨_, ⟨body, last, hp, hq, rfl⟩, hrest, hd⟩
    refine ⟨c.advance w.toList (body ++ last :: d.rest), ⟨_, by simpa using hrest, rfl⟩,
      c.advance (w.toList ++ body) (last :: d.rest), ⟨body, _, rfl, hp, by simp⟩, d, ?_, rfl⟩
    exact ⟨last, d.rest, rfl, hq, by simpa using hd⟩

/-- A sequence ends at the first character that is not in its body. -/
theorem bracketed_inj {w : String} {p q : Char → Bool} (hpq : ∀ c, p c = true → q c = false)
    {s s' t t' : Str} (hs : Bracketed w p q s) (hs' : Bracketed w p q s')
    (h : s ++ t = s' ++ t') : t = t' := by
  obtain ⟨body, last, hp, hq, rfl⟩ := hs
  obtain ⟨body', last', hp', hq', rfl⟩ := hs'
  simp only [List.append_assoc, List.singleton_append, List.append_cancel_left_eq] at h
  have hlast : p last = false := by
    by_contra hne
    rw [hpq last (by simpa using hne)] at hq
    cases hq
  have hlast' : p last' = false := by
    by_contra hne
    rw [hpq last' (by simpa using hne)] at hq'
    cases hq'
  have hdrop := congrArg (List.dropWhile p) h
  rw [List.dropWhile_append_of_pos hp, List.dropWhile_append_of_pos hp',
    List.dropWhile_cons_of_neg (by simp [hlast]), List.dropWhile_cons_of_neg (by simp [hlast'])]
    at hdrop
  exact (List.cons.inj hdrop).2

/-- An unfinished sequence ends in its body at the latest. -/
theorem mem_of_prefix_bracketed {w : String} {p q : Char → Bool} {s t : Str}
    (hs : Bracketed w p q s) (ht : t <+: s) (hne : t ≠ s) :
    ∀ c ∈ t, c ∈ w.toList ∨ p c = true := by
  obtain ⟨body, last, hbody, -, rfl⟩ := hs
  have hshort := (List.prefix_concat_iff.mp ht).resolve_left hne
  intro c hc
  exact (List.mem_append.mp (hshort.subset hc)).imp_right (hbody c)

theorem reads_bracketed {w : String} {x : Char} {v : Str} {p q : Char → Bool}
    (hw : w.toList = x :: v) (hv : x ∉ v) (hp : p x = false) (hq : q x = false)
    (hpq : ∀ c, p c = true → q c = false) :
    Reads (bracketed w p q) x (Bracketed w p q) where
  head first s rest := by
    constructor
    · intro hhead
      obtain ⟨c, hc, rfl⟩ := Option.map_eq_some_iff.mp hhead
      obtain ⟨u, hu, hrest, -⟩ := mem_run_bracketed.mp (List.mem_of_head? hc)
      exact ⟨u, hu, hrest⟩
    · rintro ⟨u, hu, rfl⟩
      have hmem : Cur.advance ⟨first, u ++ rest, []⟩ u rest ∈
          run (bracketed w p q) ⟨first, u ++ rest, []⟩ :=
        mem_run_bracketed.mpr ⟨u, hu, rfl, rfl⟩
      cases hhead : (run (bracketed w p q) ⟨first, u ++ rest, []⟩).head? with
      | none =>
        rw [List.head?_eq_none_iff.mp hhead] at hmem
        cases hmem
      | some c =>
        obtain ⟨u', hu', hrest, -⟩ := mem_run_bracketed.mp (List.mem_of_head? hhead)
        rw [Option.map_some, bracketed_inj hpq hu hu' hrest]
  starts := by
    rintro _ ⟨body, last, hbody, hlast, rfl⟩
    refine ⟨v ++ body ++ [last], by rw [hw]; rfl, ?_⟩
    intro hmem
    rcases List.mem_append.mp hmem with hmem | hmem
    · rcases List.mem_append.mp hmem with hmem | hmem
      · exact hv hmem
      · rw [hbody x hmem] at hp
        cases hp
    · rw [List.mem_singleton.mp hmem, hlast] at hq
      cases hq

/-! ## Terminal control sequences -/

/-- `[0-9;]` -/
def isParameter (c : Char) : Bool := range '0' '9' c || c == ';'

/-- `[A-Za-z]` -/
def isLetter (c : Char) : Bool := range 'A' 'Z' c || range 'a' 'z' c

/-- A complete sequence: `ESC [`, digits and semicolons, a letter. -/
def Escape : Str → Prop := Bracketed "\x1b[" isParameter isLetter

theorem range_iff {a b c : Char} : range a b c = true ↔ a.toNat ≤ c.toNat ∧ c.toNat ≤ b.toNat := by
  simp only [range, Bool.and_eq_true, decide_eq_true_eq, Char.le_def, UInt32.le_iff_toNat_le]
  rfl

theorem isParameter_iff {c : Char} :
    isParameter c = true ↔ 48 ≤ c.toNat ∧ c.toNat ≤ 57 ∨ c.toNat = 59 := by
  rw [isParameter, Bool.or_eq_true, range_iff, beq_iff_eq, ← Char.toNat_inj]
  rfl

theorem isLetter_iff {c : Char} :
    isLetter c = true ↔ 65 ≤ c.toNat ∧ c.toNat ≤ 90 ∨ 97 ≤ c.toNat ∧ c.toNat ≤ 122 := by
  rw [isLetter, Bool.or_eq_true, range_iff, range_iff]
  rfl

theorem reads_escape : Reads (bracketed "\x1b[" isParameter isLetter) '\x1b' Escape := by
  apply reads_bracketed (v := ['[']) rfl
  · decide
  · decide
  · decide
  · intro c hc
    rw [isParameter_iff] at hc
    rw [← Bool.not_eq_true, isLetter_iff]
    omega

end XfceLinux.Lib.Regex
