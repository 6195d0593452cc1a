import Mathlib

/-!
# Python text as lists of characters

`str` values are lists of code points. The functions are the `str` methods and the
built-in conversions that the scripts use, with one-character separators. What depends on
the Unicode database of the interpreter, whose version no script fixes, is read from a
`Unicode` structure.
-/

namespace XfceLinux.Lib.Text

abbrev Str := List Char

abbrev Bytes := List UInt8

/-- The bytes of an ASCII text. -/
def ascii (s : String) : Bytes := s.toList.map fun c => UInt8.ofNat c.toNat

/-! ## Character classes -/

/-- `str.isspace` of one character, and `\s`. -/
def isSpace (c : Char) : Bool :=
  let n := c.toNat
  (9 ≤ n && n ≤ 13) || (28 ≤ n && n ≤ 32) || n == 133 || n == 160 || n == 5760 ||
    (8192 ≤ n && n ≤ 8202) || n == 8232 || n == 8233 || n == 8239 || n == 8287 || n == 12288

/-- The parts of the Unicode database that differ between versions of Python. -/
structure Unicode where
  /-- `str.isalnum` of one character -/
  isAlnum : Char → Bool
  /-- The value of a decimal digit. -/
  decimal : Char → Option Nat
  isAlnum_ascii : ∀ c, c.toNat < 128 → isAlnum c = c.isAlphanum
  isAlnum_not_space : ∀ c, isAlnum c → isSpace c = false
  decimal_ascii : ∀ c, c.toNat < 128 →
    decimal c = if c.isDigit then some (c.toNat - '0'.toNat) else none

/-- The characters every version of the database agrees on. -/
def Unicode.ascii : Unicode where
  isAlnum c := c.isAlphanum && decide (c.toNat < 128)
  decimal c := if c.isDigit then some (c.toNat - '0'.toNat) else none
  isAlnum_ascii c hc := by simp [hc]
  isAlnum_not_space c hc := by
    simp only [Char.isAlphanum, Char.isAlpha, Char.isUpper, Char.isLower, Char.isDigit,
      Bool.and_eq_true, Bool.or_eq_true, decide_eq_true_eq, UInt32.le_iff_toNat_le,
      ge_iff_le] at hc
    simp only [isSpace, Char.toNat, Bool.or_eq_false_iff, Bool.and_eq_false_iff,
      decide_eq_false_iff_not, beq_eq_false_iff_ne, ne_eq]
    have : c.val.toNat = c.toNat := rfl
    simp at hc
    omega
  decimal_ascii _ _ := rfl

/-- `\w` -/
def Unicode.isWord (u : Unicode) (c : Char) : Bool := u.isAlnum c || c == '_'

/-- `\d` -/
def Unicode.isDecimal (u : Unicode) (c : Char) : Bool := (u.decimal c).isSome

/-! ## Stripping -/

/-- `s.lstrip()` for the characters in `p` -/
def lstrip (p : Char → Bool) (s : Str) : Str := s.dropWhile p

/-- `s.rstrip()` for the characters in `p` -/
def rstrip (p : Char → Bool) (s : Str) : Str := (s.reverse.dropWhile p).reverse

/-- `s.strip()` for the characters in `p` -/
def strip (p : Char → Bool) (s : Str) : Str := rstrip p (lstrip p s)

theorem lstrip_append {p : Char → Bool} {w : Str} (h : ∀ c ∈ w, p c) (s : Str) :
    lstrip p (w ++ s) = lstrip p s := by
  simp only [lstrip, List.dropWhile_append_of_pos h]

theorem lstrip_eq_self {p : Char → Bool} {s : Str} (h : ∀ c ∈ s.head?, p c = false) :
    lstrip p s = s := by
  cases s with
  | nil => rfl
  | cons c s => simp [lstrip, List.dropWhile, h c rfl]

theorem rstrip_append {p : Char → Bool} {w : Str} (h : ∀ c ∈ w, p c) (s : Str) :
    rstrip p (s ++ w) = rstrip p s := by
  simp only [rstrip, List.reverse_append]
  rw [List.dropWhile_append_of_pos fun c hc => h c (List.mem_reverse.mp hc)]

theorem rstrip_append_singleton {p : Char → Bool} {c : Char} (h : p c = false) (s : Str) :
    rstrip p (s ++ [c]) = s ++ [c] := by
  simp [rstrip, h]

theorem strip_eq_self {p : Char → Bool} {s : Str} (hhead : ∀ c ∈ s.head?, p c = false)
    (hlast : ∀ c ∈ s.getLast?, p c = false) : strip p s = s := by
  rw [strip, lstrip_eq_self hhead]
  rcases List.eq_nil_or_concat' s with rfl | ⟨init, c, rfl⟩
  · rfl
  · exact rstrip_append_singleton (hlast c List.getLast?_concat) init

theorem strip_of_forall {p : Char → Bool} {s : Str} (h : ∀ c ∈ s, p c = false) :
    strip p s = s :=
  strip_eq_self (fun c hc => h c (List.mem_of_head? hc)) fun c hc => h c (List.mem_of_getLast? hc)

/-! ## Splitting -/

/-- `s.partition(c)`, without the separator itself. -/
def partition (c : Char) (s : Str) : Str × Str :=
  (s.takeWhile (· ≠ c), (s.dropWhile (· ≠ c)).tail)

theorem decide_ne_of_notMem {α : Type*} [DecidableEq α] {c : α} {s : List α} (h : c ∉ s) :
    ∀ d ∈ s, decide (d ≠ c) = true := by
  intro d hd
  exact decide_eq_true fun hdc : d = c => h (hdc ▸ hd)

theorem partition_append {c : Char} {s : Str} (h : c ∉ s) (t : Str) :
    partition c (s ++ c :: t) = (s, t) := by
  have hne := decide_ne_of_notMem h
  rw [partition, List.takeWhile_append_of_pos hne, List.dropWhile_append_of_pos hne]
  simp

/-- `s.rsplit(c, 1)[0]` -/
def rsplitHead (c : Char) (s : Str) : Str :=
  if c ∈ s then (s.reverse.dropWhile (· ≠ c)).tail.reverse else s

/-- `s.rsplit(c, 1)[-1]`, which is `s.split(c)[-1]` -/
def rsplitLast (c : Char) (s : Str) : Str :=
  (s.reverse.takeWhile (· ≠ c)).reverse

theorem rsplitLast_of_notMem {c : Char} {t : Str} (h : c ∉ t) : rsplitLast c t = t := by
  unfold rsplitLast
  have hne := decide_ne_of_notMem (mt List.mem_reverse.mp h)
  rw [List.takeWhile_eq_self_iff.mpr hne, List.reverse_reverse]

theorem rsplitLast_append_cons {c : Char} {t : Str} (h : c ∉ t) (s : Str) :
    rsplitLast c (s ++ c :: t) = t := by
  have hall := decide_ne_of_notMem (mt List.mem_reverse.mp h)
  unfold rsplitLast
  rw [List.reverse_append, List.reverse_cons, List.append_assoc,
    List.takeWhile_append_of_pos hall]
  simp

theorem rsplitHead_of_notMem {c : Char} {s : Str} (h : c ∉ s) : rsplitHead c s = s := if_neg h

theorem rsplitHead_append_cons {c : Char} {t : Str} (h : c ∉ t) (s : Str) :
    rsplitHead c (s ++ c :: t) = s := by
  have hall := decide_ne_of_notMem (mt List.mem_reverse.mp h)
  rw [rsplitHead, if_pos (by simp), List.reverse_append, List.reverse_cons, List.append_assoc,
    List.dropWhile_append_of_pos hall]
  simp

/-! ## Searching and formatting -/

/-- `pat in s` -/
def contains (pat : Str) : Str → Bool
  | [] => pat.isEmpty
  | c :: s => pat.isPrefixOf (c :: s) || contains pat s

/-- `s.replace(pat, "")` for a non-empty `pat`, with `n` at least the length of `s`. -/
def removeAllFrom (pat : Str) : Nat → Str → Str
  | 0, s => s
  | _, [] => []
  | n + 1, c :: s =>
    if pat.isPrefixOf (c :: s) then removeAllFrom pat n ((c :: s).drop pat.length)
    else c :: removeAllFrom pat n s

/-- `s.replace(pat, "")` for a non-empty `pat` -/
def removeAll (pat s : Str) : Str := removeAllFrom pat s.length s

/-- `f"{s:ns}"`: padded with blanks on the right -/
def padRight (n : Nat) (s : Str) : Str := s ++ List.replicate (n - s.length) ' '

/-- `l[-n:]` -/
def lastN {α : Type} (n : Nat) (l : List α) : List α := l.drop (l.length - n)

theorem forall_mem_lastN_succ {α : Type} (n : Nat) (l : List α) (P : α → Prop) :
    (∀ e ∈ lastN (n + 1) l, P e) ↔
      (∀ e ∈ l.getLast?, P e) ∧ ∀ e ∈ lastN n l.dropLast, P e := by
  rcases List.eq_nil_or_concat l with rfl | ⟨l, x, rfl⟩
  · simp [lastN]
  · have hlast : lastN (n + 1) (l.concat x) = lastN n l ++ [x] := by
      rw [lastN, lastN, List.concat_eq_append, List.length_append, List.length_singleton,
        Nat.add_sub_add_right, List.drop_append_of_le_length (Nat.sub_le _ _)]
    rw [hlast, List.forall_mem_append, and_comm]
    simp

/-- `sys.get_int_max_str_digits()`: `int` refuses longer numbers. -/
def intMaxStrDigits : Nat := 4300

/-- `int(s)` for a text of decimal digits: `none` is a `ValueError`. -/
def parseInt (u : Unicode) (s : Str) : Option Nat :=
  if s.length ≤ intMaxStrDigits then
    s.foldl (fun n c => do pure (10 * (← n) + (← u.decimal c))) (some 0)
  else none

end XfceLinux.Lib.Text
