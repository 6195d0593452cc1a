import XfceLinux.Lib.Text

/-!
# UTF-8 with `errors="replace"`

`bytes.decode("utf-8", errors="replace")` as a machine that reads one byte at a time. A
byte sequence falls into units: the encoding of a character, or a longest prefix of such
an encoding that goes wrong, or a byte that starts none. Each unit becomes one character,
`U+FFFD` for the faulty ones. The machine is inside a unit when it has read a proper
prefix of it (`Pending`).

Two chunks can be decoded apart exactly when the second one does not begin inside a unit of
their concatenation: `decode_append` and `length_decode_append_lt`. Newlines survive every
way of cutting (`count_decode`).
-/

namespace XfceLinux.Lib.Utf8

open Text

/-! ## Encoding -/

/-- `s.encode("utf-8")` -/
def encode (s : Str) : Bytes := s.flatMap String.utf8EncodeChar

theorem encode_append (s t : Str) : encode (s ++ t) = encode s ++ encode t :=
  List.flatMap_append

theorem encode_cons (c : Char) (s : Str) :
    encode (c :: s) = String.utf8EncodeChar c ++ encode s :=
  List.flatMap_cons

/-- Bytes below `0x80` stand for characters only. -/
theorem mem_utf8EncodeChar {c : Char} {b : UInt8} (h : b ∈ String.utf8EncodeChar c)
    (hb : b.toNat < 0x80) : c.toNat = b.toNat := by
  have hval : c.val.toNat = c.toNat := rfl
  have hlarge : ∀ n, 0x80 ≤ n → n < 0x100 → b ≠ UInt8.ofNat n := by
    rintro n hn hlt rfl
    rw [UInt8.toNat_ofNat', Nat.mod_eq_of_lt hlt] at hb
    omega
  unfold String.utf8EncodeChar at h
  dsimp only at h
  split_ifs at h with h1 h2 h3
  · rw [List.mem_singleton] at h
    rw [h, UInt8.toNat_ofNat', Nat.mod_eq_of_lt (by omega), hval]
  all_goals simp only [List.mem_cons, List.not_mem_nil, or_false] at h
  · rcases h with h | h <;> exact absurd h (hlarge _ (by omega) (by omega))
  · rcases h with h | h | h <;> exact absurd h (hlarge _ (by omega) (by omega))
  · rcases h with h | h | h | h <;> exact absurd h (hlarge _ (by omega) (by omega))

theorem mem_encode {s : Str} {b : UInt8} (h : b ∈ encode s) (hb : b.toNat < 0x80) :
    ∃ c ∈ s, c.toNat = b.toNat := by
  obtain ⟨c, hc, hbc⟩ := List.mem_flatMap.mp h
  exact ⟨c, hc, mem_utf8EncodeChar hbc hb⟩

theorem encode_inj {s t : Str} (h : encode s = encode t) : s = t := by
  have hbytes : s.utf8Encode = t.utf8Encode := by
    simp only [List.utf8Encode]
    exact congrArg _ h
  exact String.ofList_inj.mp (String.toByteArray_inj.mp hbytes)

/-- `bs.decode("utf-8")`: `none` is a `UnicodeDecodeError`. -/
def decodeStrict (bs : Bytes) : Option Str :=
  bs.toByteArray.utf8Decode?.map Array.toList

theorem toByteArray_encode (s : Str) : (encode s).toByteArray = s.utf8Encode := by
  rw [List.utf8Encode, encode]

theorem decodeStrict_encode (s : Str) : decodeStrict (encode s) = some s := by
  rw [decodeStrict, toByteArray_encode, List.utf8Decode?_utf8Encode]
  rfl

/-- The encodings are what can be decoded. -/
theorem decodeStrict_isSome_iff {bs : Bytes} :
    (decodeStrict bs).isSome = true ↔ ∃ s, bs = encode s := by
  constructor
  · intro h
    rw [decodeStrict, Option.isSome_map, ByteArray.isSome_utf8Decode?_iff] at h
    obtain ⟨s, hs⟩ := h
    rw [← toByteArray_encode] at hs
    exact ⟨s, by simpa using congrArg (·.data.toList) hs⟩
  · rintro ⟨s, rfl⟩
    rw [decodeStrict_encode]
    rfl

/-! ## Units -/

/-- `U+FFFD` -/
def replacement : Char := Char.ofNat 0xFFFD

/-- A proper prefix of the encoding of a character beyond ASCII. -/
structure Pending where
  /-- The bits of the character read so far. -/
  acc : Nat
  /-- The number of bytes to come, less one. -/
  left : Nat
  /-- The range of the next byte. -/
  lo : Nat
  hi : Nat
  cont : 0x80 ≤ lo ∧ hi < 0xC0
  beyond_ascii : 0x80 ≤ (acc * 0x40 + (lo - 0x80)) * 0x40 ^ left
deriving DecidableEq

/-- The first byte of a unit: what it decodes to, and the state behind it. -/
def begin (b : UInt8) : Str × Option Pending :=
  let n := b.toNat
  if n < 0x80 then ([Char.ofNat n], none)
  else if h : 0xC2 ≤ n ∧ n ≤ 0xDF then
    ([], some ⟨n - 0xC0, 0, 0x80, 0xBF, by omega, by omega⟩)
  else if n = 0xE0 then ([], some ⟨0, 1, 0xA0, 0xBF, by omega, by omega⟩)
  else if h : 0xE1 ≤ n ∧ n ≤ 0xEF ∧ n ≠ 0xED then
    ([], some ⟨n - 0xE0, 1, 0x80, 0xBF, by omega, by omega⟩)
  else if n = 0xED then ([], some ⟨0xD, 1, 0x80, 0x9F, by omega, by omega⟩)
  else if n = 0xF0 then ([], some ⟨0, 2, 0x90, 0xBF, by omega, by omega⟩)
  else if h : 0xF1 ≤ n ∧ n ≤ 0xF3 then
    ([], some ⟨n - 0xF0, 2, 0x80, 0xBF, by omega, by omega⟩)
  else if n = 0xF4 then ([], some ⟨4, 2, 0x80, 0x8F, by omega, by omega⟩)
  else ([replacement], none)

namespace Pending

/-- The byte goes on with the unit. -/
def Accepts (p : Pending) (b : UInt8) : Prop := p.lo ≤ b.toNat ∧ b.toNat ≤ p.hi

instance (p : Pending) (b : UInt8) : Decidable (p.Accepts b) :=
  inferInstanceAs (Decidable (_ ∧ _))

/-- The bits with those of one more byte. -/
def bits (p : Pending) (b : UInt8) : Nat := p.acc * 0x40 + (b.toNat - 0x80)

theorem beyond_ascii_bits {p : Pending} {b : UInt8} (h : p.Accepts b) :
    0x80 ≤ p.bits b * 0x40 ^ p.left := by
  refine p.beyond_ascii.trans (Nat.mul_le_mul_right _ ?_)
  have := h.1
  unfold bits
  omega

/-- Go on with the unit. -/
def push (p : Pending) (b : UInt8) (h : p.Accepts b) : Str × Option Pending :=
  match hl : p.left with
  | 0 => ([Char.ofNat (p.bits b)], none)
  | left + 1 =>
    ([], some ⟨p.bits b, left, 0x80, 0xBF, by omega, by
      have := beyond_ascii_bits h
      rw [hl, Nat.pow_succ'] at this
      simpa [Nat.mul_assoc] using this⟩)

end Pending

/-- Read a byte: what is decoded by it, and the state behind it. -/
def step (q : Option Pending) (b : UInt8) : Str × Option Pending :=
  match q with
  | none => begin b
  | some p =>
    if h : p.Accepts b then p.push b h
    else (replacement :: (begin b).1, (begin b).2)

/-- What is decoded at the end of the bytes. -/
def finish : Option Pending → Str
  | none => []
  | some _ => [replacement]

def decodeFrom (q : Option Pending) : Bytes → Str
  | [] => finish q
  | b :: bs => (step q b).1 ++ decodeFrom (step q b).2 bs

/-- `bs.decode("utf-8", errors="replace")` -/
def decode (bs : Bytes) : Str := decodeFrom none bs

/-- The state behind `bs`. -/
def after (bs : Bytes) : Option Pending := bs.foldl (fun q b => (step q b).2) none

/-- `bs` begins inside a unit of `as ++ bs`. -/
def Splits (as bs : Bytes) : Prop := ∃ p ∈ after as, ∃ b ∈ bs.head?, p.Accepts b

instance (as bs : Bytes) : Decidable (Splits as bs) :=
  match h : after as, hb : bs.head? with
  | some p, some b => decidable_of_iff (p.Accepts b) (by simp [Splits, h, hb])
  | none, _ => isFalse (by simp [Splits, h])
  | some _, none => isFalse (by simp [Splits, hb])

/-! ## Newlines -/

theorem eq_of_ofNat_eq_newline {n : Nat} (h : Char.ofNat n = '\n') : n = 10 := by
  have hval : (Char.ofNat n).toNat = 10 := by rw [h]; rfl
  rw [Char.toNat_ofNat] at hval
  split at hval
  · exact hval
  · cases hval

theorem begin_newline : begin 10 = (['\n'], none) := by decide

theorem notMem_begin {b : UInt8} (h : b ≠ 10) : '\n' ∉ (begin b).1 := by
  unfold begin
  dsimp only
  split
  · intro hmem
    exact h (UInt8.toNat_inj.mp (eq_of_ofNat_eq_newline (List.mem_singleton.mp hmem).symm))
  · split_ifs <;> simp [replacement]

theorem notMem_push {p : Pending} {b : UInt8} (h : p.Accepts b) : '\n' ∉ (p.push b h).1 := by
  have hbits := Pending.beyond_ascii_bits h
  unfold Pending.push
  split
  · rename_i hl
    intro hmem
    have hten := eq_of_ofNat_eq_newline (List.mem_singleton.mp hmem).symm
    rw [hl, hten] at hbits
    omega
  · simp

theorem step_newline (q : Option Pending) : step q 10 = (finish q ++ ['\n'], none) := by
  cases q with
  | none => exact begin_newline
  | some p =>
    have hrefused : ¬ p.Accepts 10 := fun h => absurd (p.cont.1.trans h.1) (by decide)
    simp [step, hrefused, begin_newline, finish]

theorem notMem_step {b : UInt8} (h : b ≠ 10) (q : Option Pending) : '\n' ∉ (step q b).1 := by
  unfold step
  split
  · exact notMem_begin h
  · split
    · exact notMem_push ‹_›
    · exact List.not_mem_cons_of_ne_of_not_mem (by decide) (notMem_begin h)

theorem count_finish (q : Option Pending) : (finish q).count '\n' = 0 := by
  cases q <;> rfl

theorem count_decodeFrom (q : Option Pending) (bs : Bytes) :
    (decodeFrom q bs).count '\n' = bs.count 10 := by
  induction bs generalizing q with
  | nil => exact count_finish q
  | cons b bs ih =>
    rw [decodeFrom, List.count_append, ih]
    by_cases hb : b = 10
    · subst hb
      rw [step_newline, List.count_append, count_finish, List.count_cons_self]
      simp [Nat.add_comm]
    · rw [List.count_eq_zero.mpr (notMem_step hb q), List.count_cons_of_ne hb, Nat.zero_add]

/-- **Newlines.** The decoded text has a newline for each newline byte. -/
theorem count_decode (bs : Bytes) : (decode bs).count '\n' = bs.count 10 :=
  count_decodeFrom none bs

/-! ## Cutting -/

theorem after_append (as bs : Bytes) :
    after (as ++ bs) = bs.foldl (fun q b => (step q b).2) (after as) :=
  List.foldl_append

theorem after_newline (as : Bytes) : after (as ++ [10]) = none := by
  rw [after_append, List.foldl_cons, step_newline, List.foldl_nil]

theorem exists_decodeFrom (q : Option Pending) (as : Bytes) :
    ∃ out, ∀ bs, decodeFrom q (as ++ bs) =
      out ++ decodeFrom (as.foldl (fun q b => (step q b).2) q) bs := by
  induction as generalizing q with
  | nil => exact ⟨[], fun bs => rfl⟩
  | cons a as ih =>
    obtain ⟨out, hout⟩ := ih (step q a).2
    refine ⟨(step q a).1 ++ out, fun bs => ?_⟩
    rw [List.cons_append, decodeFrom, hout, List.append_assoc, List.foldl_cons]

theorem begin_of_accepts {p : Pending} {b : UInt8} (h : p.Accepts b) :
    begin b = ([replacement], none) := by
  have hlo := p.cont.1.trans h.1
  have hhi := h.2.trans_lt p.cont.2
  unfold begin
  dsimp only
  split_ifs
  all_goals first | rfl | omega

theorem decode_cons_of_accepts {p : Pending} {b : UInt8} (h : p.Accepts b) (bs : Bytes) :
    decode (b :: bs) = replacement :: decode bs := by
  rw [decode, decodeFrom]
  change (begin b).1 ++ decodeFrom (begin b).2 bs = _
  rw [begin_of_accepts h]
  rfl

theorem decodeFrom_of_accepts {p : Pending} {b : UInt8} (h : p.Accepts b) (bs : Bytes) :
    decodeFrom (some p) (b :: bs) = (p.push b h).1 ++ decodeFrom (p.push b h).2 bs := by
  rw [decodeFrom, step, dif_pos h]

theorem decodeFrom_of_refused {p : Pending} {b : UInt8} (h : ¬ p.Accepts b) (bs : Bytes) :
    decodeFrom (some p) (b :: bs) = replacement :: decode (b :: bs) := by
  rw [decodeFrom, step, dif_neg h]
  rfl

/-- A unit that goes on yields one character, where two faulty ones would have stood. -/
theorem length_decodeFrom_lt {p : Pending} {b : UInt8} (h : p.Accepts b) (bs : Bytes) :
    (decodeFrom (some p) (b :: bs)).length < 1 + (decode (b :: bs)).length := by
  induction bs generalizing p b with
  | nil =>
    rw [decodeFrom_of_accepts h, decode_cons_of_accepts h]
    unfold Pending.push
    split <;> simp [decodeFrom, finish]
  | cons c bs ih =>
    rw [decodeFrom_of_accepts h, decode_cons_of_accepts h]
    unfold Pending.push
    split
    · simp [decode]
    · rename_i left hl
      simp only [List.nil_append, List.length_cons]
      generalize hq : Pending.mk _ left _ _ _ _ = q
      by_cases hc : q.Accepts c
      · have := ih hc
        omega
      · rw [decodeFrom_of_refused hc, List.length_cons]
        omega

/-- Behind the bytes `as`, decoding starts afresh unless the next byte goes on with the
unit begun in them. -/
theorem decodeFrom_of_not_splits {as bs : Bytes} (h : ¬ Splits as bs) :
    decodeFrom (after as) bs = finish (after as) ++ decode bs := by
  cases hq : after as with
  | none => rfl
  | some p =>
    cases bs with
    | nil => rfl
    | cons b bs =>
      exact decodeFrom_of_refused (fun hb => h ⟨p, hq, b, rfl, hb⟩) bs

/-- **Cuts.** Two chunks can be decoded apart when the cut is not inside a unit. -/
theorem decode_append {as bs : Bytes} (h : ¬ Splits as bs) :
    decode (as ++ bs) = decode as ++ decode bs := by
  obtain ⟨out, hout⟩ := exists_decodeFrom none as
  have has := hout []
  rw [List.append_nil] at has
  rw [decode, hout, decode, has, List.append_assoc]
  exact congrArg (out ++ ·) (decodeFrom_of_not_splits h)

/-- A cut inside a unit adds a character. -/
theorem length_decode_append_lt {as bs : Bytes} (h : Splits as bs) :
    (decode (as ++ bs)).length < (decode as).length + (decode bs).length := by
  obtain ⟨p, hp, b, hb, hpb⟩ := h
  obtain ⟨bs, rfl⟩ : ∃ cs, bs = b :: cs := by
    cases bs with
    | nil => cases hb
    | cons c cs => exact ⟨cs, by rw [Option.some.inj hb]⟩
  obtain ⟨out, hout⟩ := exists_decodeFrom none as
  have has := hout []
  rw [List.append_nil] at has
  change after as = some p at hp
  have hlt := length_decodeFrom_lt hpb bs
  rw [decode, hout, decode, has]
  simp only [List.length_append]
  change out.length + (decodeFrom (after as) (b :: bs)).length <
    out.length + (finish (after as)).length + _
  rw [hp]
  simpa [finish, Nat.add_assoc] using hlt

theorem Splits.append {as bs : Bytes} (h : Splits as bs) (cs : Bytes) : Splits as (bs ++ cs) := by
  obtain ⟨p, hp, b, hb, hpb⟩ := h
  refine ⟨p, hp, b, ?_, hpb⟩
  cases bs with
  | nil => cases hb
  | cons c bs => exact hb

theorem not_splits_nil_left (bs : Bytes) : ¬ Splits [] bs := by
  rintro ⟨p, hp, -⟩
  cases hp

/-- Bytes that decode to a text with a proper first character begin no unit's inside. -/
theorem not_splits_of_head {bs : Bytes} {c : Char} (h : (decode bs).head? = some c)
    (hc : c ≠ replacement) (as : Bytes) : ¬ Splits as bs := by
  rintro ⟨p, -, b, hb, hpb⟩
  cases bs with
  | nil => cases hb
  | cons b' bs =>
    obtain rfl : b' = b := Option.some.inj hb
    rw [decode_cons_of_accepts hpb] at h
    exact hc (Option.some.inj h).symm

theorem decode_ascii {bs : Bytes} (h : ∀ b ∈ bs, b.toNat < 0x80) :
    decode bs = bs.map fun b => Char.ofNat b.toNat := by
  induction bs with
  | nil => rfl
  | cons b bs ih =>
    have hbegin : begin b = ([Char.ofNat b.toNat], none) := if_pos (h b List.mem_cons_self)
    have hcons : decode (b :: bs) = (begin b).1 ++ decodeFrom (begin b).2 bs := rfl
    rw [hcons, hbegin, List.map_cons, ← ih fun c hc => h c (List.mem_cons_of_mem b hc)]
    rfl

end XfceLinux.Lib.Utf8
