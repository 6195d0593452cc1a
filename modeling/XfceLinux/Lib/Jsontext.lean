import XfceLinux.Lib.Jsonload

/-!
# JSON texts that are put together

A script prints a JSON text out of pieces. `Reads w v` says that `json.loads` reads the piece
`w` as the value `v` wherever it stands. There is one rule for each kind of piece; strings are
put between quotation marks as they are, so that they must be `Plain`.
-/

namespace XfceLinux.Lib.Jsonload

open Text
open Json (isWhitespace skip)

/-- No character has to be escaped. -/
def Plain (s : Str) : Prop := ∀ c ∈ s, c ≠ '"' ∧ c ≠ '\\' ∧ 0x20 ≤ c.toNat

instance (s : Str) : Decidable (Plain s) :=
  List.decidableBAll (fun c => c ≠ '"' ∧ c ≠ '\\' ∧ 0x20 ≤ c.toNat) s

/-- A string between quotation marks. -/
def literal (s : Str) : Str := '"' :: (s ++ ['"'])

def Blank (w : Str) : Prop := ∀ c ∈ w, isWhitespace c = true

instance (w : Str) : Decidable (Blank w) :=
  List.decidableBAll (fun c => isWhitespace c = true) w

theorem Plain.quote_notMem {s : Str} (h : Plain s) : '"' ∉ s := fun hmem => (h _ hmem).1 rfl

theorem Plain.ne_control {s : Str} (h : Plain s) {c : Char} (hc : c ∈ s) :
    c ≠ '\n' ∧ c ≠ '\x00' := by
  constructor <;>
  · rintro rfl
    exact absurd (h _ hc).2.2 (by decide)

theorem Plain.newline_notMem {s : Str} (h : Plain s) : '\n' ∉ s :=
  fun hmem => (h.ne_control hmem).1 rfl

theorem skip_blank {w : Str} (hw : Blank w) {c : Char} (hc : isWhitespace c = false) (s : Str) :
    skip (w ++ c :: s) = c :: s := by
  rw [skip, List.dropWhile_append_of_pos hw, ← skip, Json.skip_of_head hc]

theorem scanString_literal {s : Str} (hs : Plain s) (rest : Str) :
    scanString (s ++ '"' :: rest) = some (s, rest) := by
  induction s with
  | nil => rfl
  | cons c s ih =>
    obtain ⟨hc, hs⟩ := List.forall_mem_cons.mp hs
    rw [List.cons_append, scanString, if_neg (by simp [hc.2.1, hc.2.2]), ih hs]
    · rfl
    · exact hc.1
    · rintro _ _ _ _ _ rfl
      exact absurd rfl hc.2.1
    · rintro _ _ rfl
      exact absurd rfl hc.2.1

/-- `w` is read as `v`, whatever stands behind it. -/
structure Reads (w : Str) (v : Value) : Prop where
  head : ∃ c s, w = c :: s ∧ isWhitespace c = false
  scan : ∀ n rest, w.length ≤ n → scan n (w ++ rest) = some (v, rest)

/-- `w` is read as the members of an object, up to the closing bracket. -/
structure ReadsMembers (w : Str) (members : List (Str × Value)) : Prop where
  head : ∃ s, w = '"' :: s
  scan : ∀ n rest, w.length ≤ n → scanMembers n (w ++ rest) = some (members, rest)

theorem reads_str {s : Str} (hs : Plain s) : Reads (literal s) (.str s) where
  head := ⟨_, _, rfl, by decide⟩
  scan n rest hn := by
    obtain ⟨n, rfl⟩ := Nat.exists_eq_succ_of_ne_zero (Nat.ne_of_gt (Nat.lt_of_lt_of_le
      (Nat.succ_pos _) hn))
    have hsplit : literal s ++ rest = '"' :: (s ++ '"' :: rest) := by simp [literal]
    rw [hsplit, Jsonload.scan, scanString_literal hs]
    rfl

theorem reads_bool (b : Bool) : Reads (if b then "true" else "false").toList (.bool b) where
  head := by cases b <;> exact ⟨_, _, rfl, by decide⟩
  scan n rest hn := by
    cases b <;> (cases n <;> first | exact absurd hn (by decide) | rfl)

theorem reads_emptyArr : Reads ['[', ']'] (.arr []) where
  head := ⟨_, _, rfl, by decide⟩
  scan n rest hn := by
    cases n with
    | zero => exact absurd hn (by decide)
    | succ n => rfl

section Members

variable {k a w b ws : Str} {v : Value} {ms : List (Str × Value)}

/-- What `scanMembers` makes of the text `s` behind the value of a member. -/
def afterMember (n : Nat) (k : Str) (v : Value) (s : Str) : Option (List (Str × Value) × Str) :=
  match skip s with
  | '}' :: s => some ([(k, v)], s)
  | ',' :: s => (scanMembers n (skip s)).map fun p => ((k, v) :: p.1, p.2)
  | _ => none

theorem scanMembers_of_reads (hk : Plain k) (ha : Blank a) (hw : Reads w v) {n : Nat}
    (hn : w.length ≤ n) (s : Str) :
    scanMembers (n + 1) (literal k ++ ':' :: (a ++ (w ++ s))) = afterMember n k v s := by
  obtain ⟨c, u, hhead, hc⟩ := hw.head
  have hblank : skip (a ++ (w ++ s)) = w ++ s := by
    rw [hhead, List.cons_append, skip_blank ha hc]
  have hsplit : literal k ++ ':' :: (a ++ (w ++ s)) =
      '"' :: (k ++ '"' :: ':' :: (a ++ (w ++ s))) := by simp [literal]
  have hcolon : skip (':' :: (a ++ (w ++ s))) = ':' :: (a ++ (w ++ s)) :=
    Json.skip_of_head (by decide) _
  rw [hsplit, scanMembers, scanString_literal hk]
  simp only [Option.bind_eq_bind, Option.bind_some, hcolon, hblank, hw.scan n s hn]
  rfl

theorem readsMembers_single (hk : Plain k) (ha : Blank a) (hw : Reads w v) (hb : Blank b) :
    ReadsMembers (literal k ++ ':' :: (a ++ (w ++ (b ++ ['}'])))) [(k, v)] where
  head := ⟨_, rfl⟩
  scan n rest hn := by
    cases n with
    | zero => exact absurd hn (by simp [literal])
    | succ n =>
      have hlength : w.length ≤ n := by
        simp only [List.length_append, List.length_cons] at hn
        omega
      have hsplit : literal k ++ ':' :: (a ++ (w ++ (b ++ ['}']))) ++ rest =
          literal k ++ ':' :: (a ++ (w ++ (b ++ '}' :: rest))) := by simp
      have hskip : skip (b ++ '}' :: rest) = '}' :: rest := skip_blank hb (by decide) rest
      rw [hsplit, scanMembers_of_reads hk ha hw hlength]
      simp only [afterMember, hskip]

theorem readsMembers_cons (hk : Plain k) (ha : Blank a) (hw : Reads w v) (hb : Blank b)
    (hws : ReadsMembers ws ms) :
    ReadsMembers (literal k ++ ':' :: (a ++ (w ++ ',' :: (b ++ ws)))) ((k, v) :: ms) where
  head := ⟨_, rfl⟩
  scan n rest hn := by
    obtain ⟨u, hhead⟩ := hws.head
    cases n with
    | zero => exact absurd hn (by simp [literal])
    | succ n =>
      have hlength : w.length ≤ n ∧ ws.length ≤ n := by
        simp only [List.length_append, List.length_cons] at hn
        omega
      have hsplit : literal k ++ ':' :: (a ++ (w ++ ',' :: (b ++ ws))) ++ rest =
          literal k ++ ':' :: (a ++ (w ++ ',' :: (b ++ (ws ++ rest)))) := by simp
      have hblank : skip (b ++ (ws ++ rest)) = ws ++ rest := by
        rw [hhead, List.cons_append, skip_blank hb (by decide)]
      rw [hsplit, scanMembers_of_reads hk ha hw hlength.1, afterMember,
        Json.skip_of_head (by decide : isWhitespace ',' = false)]
      simp only [hblank, hws.scan n rest hlength.2, Option.map_some]

theorem reads_obj (ha : Blank a) (hws : ReadsMembers ws ms) :
    Reads ('\x7b' :: (a ++ ws)) (.obj ms) where
  head := ⟨_, _, rfl, by decide⟩
  scan n rest hn := by
    obtain ⟨u, hhead⟩ := hws.head
    cases n with
    | zero => exact absurd hn (by simp)
    | succ n =>
      have hlength : ws.length ≤ n := by
        simp only [List.length_append, List.length_cons] at hn
        omega
      have hblank : skip (a ++ (ws ++ rest)) = '"' :: (u ++ rest) := by
        rw [hhead, List.cons_append, skip_blank ha (by decide)]
      have hmembers : scanMembers n ('"' :: (u ++ rest)) = some (ms, rest) := by
        rw [← List.cons_append, ← hhead, hws.scan n rest hlength]
      rw [List.cons_append, List.append_assoc, Jsonload.scan, hblank]
      change (scanMembers n ('"' :: (u ++ rest))).map _ = _
      rw [hmembers, Option.map_some]

end Members

/-- A piece that is a whole text, up to blanks. -/
theorem loads_of_reads {w b : Str} {v : Value} (hw : Reads w v) (hb : Blank b) :
    loads (w ++ b) = some v := by
  obtain ⟨c, u, hhead, hc⟩ := hw.head
  have hblank : skip (w ++ b) = w ++ b := by
    rw [hhead, List.cons_append, Json.skip_of_head hc]
  have hrest : skip b = [] := List.dropWhile_eq_nil_iff.mpr hb
  have hlength : w.length ≤ 2 * (w ++ b).length + 1 := by
    rw [List.length_append]
    omega
  rw [loads, hblank, hw.scan _ b hlength]
  simp [hrest]

end XfceLinux.Lib.Jsonload
