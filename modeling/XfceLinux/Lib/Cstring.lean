import Mathlib

/-!
# C strings in a buffer

A buffer is a list of bytes and a pointer is a position in it. The string at a pointer ends
before the first NUL behind it, so a write of a NUL cuts a string in two. A buffer is
written as `pre ++ (s ++ 0 :: post)` where the string `s` matters: `pre.length` points to
it, and reading it does not depend on `post`.
-/

namespace XfceLinux.Lib.Cstring

variable {pre s t post : List UInt8} {c : UInt8}

/-- The byte at a pointer. -/
def charAt (buf : List UInt8) (p : Nat) : UInt8 := buf.getD p 0

/-- The string at a pointer. -/
def strAt (buf : List UInt8) (p : Nat) : List UInt8 := (buf.drop p).takeWhile (· ≠ 0)

/-- `strchr` of a byte other than NUL. -/
def strchrAt (buf : List UInt8) (p : Nat) (c : UInt8) : Option Nat :=
  if c ∈ strAt buf p then some (p + (strAt buf p).idxOf c) else none

theorem takeWhile_terminated (hs : 0 ∉ s) (post : List UInt8) :
    (s ++ 0 :: post).takeWhile (· ≠ 0) = s := by
  have hne : ∀ b ∈ s, b ≠ 0 := by
    rintro b hb rfl
    exact hs hb
  rw [List.takeWhile_append_of_pos (by simpa using hne)]
  simp

/-- A string with NULs is the one before the first of them, with something behind it. -/
theorem exists_terminated (s post : List UInt8) :
    ∃ post', s ++ 0 :: post = s.takeWhile (· ≠ 0) ++ 0 :: post' := by
  induction s with
  | nil => exact ⟨post, rfl⟩
  | cons b s ih =>
    obtain ⟨post', hpost'⟩ := ih
    by_cases hb : b = 0
    · exact ⟨s ++ 0 :: post, by simp [hb]⟩
    · exact ⟨post', by simpa [List.takeWhile_cons, hb] using hpost'⟩

@[simp] theorem strAt_terminated (hs : 0 ∉ s) :
    strAt (pre ++ (s ++ 0 :: post)) pre.length = s := by
  rw [strAt, List.drop_left, takeWhile_terminated hs]

theorem charAt_terminated : charAt (pre ++ (s ++ 0 :: post)) pre.length = s.headD 0 := by
  rw [charAt, List.getD_append_right _ _ _ _ le_rfl, Nat.sub_self]
  cases s with
  | nil => rfl
  | cons b s => rfl

theorem strchrAt_eq_none (hs : 0 ∉ s) (hc : c ∉ s) :
    strchrAt (pre ++ (s ++ 0 :: post)) pre.length c = none := by
  rw [strchrAt, strAt_terminated hs, if_neg hc]

theorem strchrAt_eq_some (pre post : List UInt8) (hs : 0 ∉ s) (hne : c ≠ 0) (ht : 0 ∉ t)
    (hc : c ∉ s) :
    strchrAt (pre ++ ((s ++ c :: t) ++ 0 :: post)) pre.length c = some (pre.length + s.length) := by
  have hzero : 0 ∉ s ++ c :: t := by
    rw [List.mem_append, List.mem_cons]
    rintro (h | h | h)
    · exact hs h
    · exact hne h.symm
    · exact ht h
  have hidx : (s ++ c :: t).idxOf c = s.length := by
    rw [List.idxOf_append_of_notMem hc, List.idxOf_cons_self, Nat.add_zero]
  rw [strchrAt, strAt_terminated hzero, if_pos (by simp), hidx]

/-- A NUL written into a string ends it there. -/
theorem set_terminated (pre s t post : List UInt8) (c : UInt8) :
    (pre ++ ((s ++ c :: t) ++ 0 :: post)).set (pre.length + s.length) 0 =
      pre ++ (s ++ 0 :: (t ++ 0 :: post)) := by
  rw [List.append_assoc s, List.cons_append, List.set_append_right _ _ (Nat.le_add_right _ _),
    Nat.add_sub_cancel_left, List.set_append_right _ _ le_rfl, Nat.sub_self, List.set_cons_zero]

/-- The string behind a terminator. -/
theorem behind (pre s t post : List UInt8) :
    pre ++ (s ++ 0 :: (t ++ 0 :: post)) = (pre ++ s ++ [0]) ++ (t ++ 0 :: post) := by
  simp

theorem length_behind (pre s : List UInt8) :
    (pre ++ s ++ [0]).length = pre.length + s.length + 1 := by
  rw [List.length_append, List.length_append, List.length_singleton]

theorem strAt_behind (pre s post : List UInt8) (ht : 0 ∉ t) :
    strAt (pre ++ (s ++ 0 :: (t ++ 0 :: post))) (pre.length + s.length + 1) = t := by
  rw [behind, ← length_behind, strAt_terminated ht]

/-- A string ends at a NUL, or at the end of the buffer. -/
theorem charAt_end (buf : List UInt8) (p : Nat) : charAt buf (p + (strAt buf p).length) = 0 := by
  unfold charAt strAt
  rw [List.getD_eq_getElem?_getD, ← List.getElem?_drop]
  generalize buf.drop p = s
  induction s with
  | nil => rfl
  | cons b s ih =>
    by_cases hb : b = 0
    · simp [hb]
    · simpa [List.takeWhile_cons, hb] using ih

/-- `strcpy` to a pointer into a buffer. -/
def strcpyAt (buf : List UInt8) (p : Nat) (s : List UInt8) : List UInt8 :=
  buf.take p ++ (s ++ 0 :: buf.drop (p + s.length + 1))

theorem strcpyAt_append (pre s room post : List UInt8) (h : room.length = s.length + 1) :
    strcpyAt (pre ++ (room ++ post)) pre.length s = pre ++ (s ++ 0 :: post) := by
  have hdrop : (pre ++ (room ++ post)).drop (pre.length + s.length + 1) = post := by
    rw [Nat.add_assoc, ← h, List.drop_length_add_append, List.drop_left]
  rw [strcpyAt, hdrop, List.take_left]

end XfceLinux.Lib.Cstring
