import XfceLinux.Lib.Dict
import XfceLinux.Lib.Text

/-!
# JSON texts of strings, arrays and objects

`json.dumps(value, indent=2, ensure_ascii=False)` and `json.loads` on the values that are made
of strings, arrays and objects. An object is the list of its members as they are written; the
dictionary that it is read as keeps the last of equal keys (`dict?`). What is written is read
back (`loads_dumps`).
-/

namespace XfceLinux.Lib.Json

open Text

inductive Value
  | str (s : Str)
  | arr (items : List Value)
  | obj (members : List (Str × Value))

/-- `dict(members)` -/
def dictOf (members : List (Str × Value)) : List (Str × Value) :=
  members.foldl (fun d m => Dict.set d m.1 m.2) []

/-- The dictionary that a value is read as. -/
def Value.dict? : Value → Option (List (Str × Value))
  | .obj members => some (dictOf members)
  | _ => none

/-- What a loop over a value goes through. -/
def Value.elements : Value → List Value
  | .str s => s.map fun c => .str [c]
  | .arr items => items
  | .obj members => (dictOf members).map (.str ·.1)

theorem dictOf_eq_self {members : List (Str × Value)} (h : (members.map (·.1)).Nodup) :
    dictOf members = members := Dict.foldl_set h

/-! ## Writing -/

def hexDigit (n : Nat) : Char := "0123456789abcdef".toList.getD n '0'

/-- `ESCAPE_DCT` -/
def escape (c : Char) : Str :=
  if c = '"' then ['\\', '"']
  else if c = '\\' then ['\\', '\\']
  else if c = '\n' then ['\\', 'n']
  else if c = '\r' then ['\\', 'r']
  else if c = '\t' then ['\\', 't']
  else if c = '\x08' then ['\\', 'b']
  else if c = '\x0c' then ['\\', 'f']
  else if c.toNat < 0x20 then
    ['\\', 'u', '0', '0', hexDigit (c.toNat / 16), hexDigit (c.toNat % 16)]
  else [c]

def quote (s : Str) : Str := '"' :: (s.flatMap escape ++ ['"'])

/-- A new line at a level of indentation. -/
def newline (level : Nat) : Str := '\n' :: List.replicate (2 * level) ' '

/-- The pieces of an array or an object between its brackets. -/
def bracket (level : Nat) (opening closing : Char) (pieces : List Str) : Str :=
  match pieces with
  | [] => [opening, closing]
  | piece :: pieces =>
    opening :: newline (level + 1) ++ piece ++
      (pieces.flatMap fun p => ',' :: newline (level + 1) ++ p) ++ newline level ++ [closing]

mutual

/-- `json.dumps(value, indent=2, ensure_ascii=False)`, at a level of indentation. -/
def dumps (level : Nat) : Value → Str
  | .str s => quote s
  | .arr items => bracket level '[' ']' (dumpsItems (level + 1) items)
  | .obj members => bracket level '{' '}' (dumpsMembers (level + 1) members)

def dumpsItems (level : Nat) : List Value → List Str
  | [] => []
  | x :: xs => dumps level x :: dumpsItems level xs

def dumpsMembers (level : Nat) : List (Str × Value) → List Str
  | [] => []
  | (k, v) :: ms => (quote k ++ [':', ' '] ++ dumps level v) :: dumpsMembers level ms

end

/-! ## Reading -/

def isWhitespace (c : Char) : Bool := c = ' ' || c = '\t' || c = '\n' || c = '\r'

def skip (s : Str) : Str := s.dropWhile isWhitespace

def hexValue (c : Char) : Option Nat :=
  if '0' ≤ c ∧ c ≤ '9' then some (c.toNat - 48)
  else if 'a' ≤ c ∧ c ≤ 'f' then some (c.toNat - 87)
  else if 'A' ≤ c ∧ c ≤ 'F' then some (c.toNat - 55)
  else none

/-- `BACKSLASH` -/
def unescape (c : Char) : Option Char :=
  if c = '"' then some '"'
  else if c = '\\' then some '\\'
  else if c = '/' then some '/'
  else if c = 'b' then some '\x08'
  else if c = 'f' then some '\x0c'
  else if c = 'n' then some '\n'
  else if c = 'r' then some '\r'
  else if c = 't' then some '\t'
  else none

/-- The character of four hexadecimal digits. Surrogates, which `dumps` does not write, are
left out. -/
def hexChar (a b c d : Char) : Option Char := do
  let n := (((← hexValue a) * 16 + (← hexValue b)) * 16 + (← hexValue c)) * 16 + (← hexValue d)
  if n.isValidChar then some (Char.ofNat n) else none

/-- `scanstring`, behind the opening quotation mark. -/
def scanString : Str → Option (Str × Str)
  | '"' :: s => some ([], s)
  | '\\' :: 'u' :: a :: b :: c :: d :: s => do
    let x ← hexChar a b c d
    (scanString s).map fun p => (x :: p.1, p.2)
  | '\\' :: e :: s => do
    let x ← unescape e
    (scanString s).map fun p => (x :: p.1, p.2)
  | c :: s =>
    if c = '\\' ∨ c.toNat < 0x20 then none else (scanString s).map fun p => (c :: p.1, p.2)
  | [] => none

mutual

/-- `scan_once`: a value at the start of the text, and the rest. -/
def scan : Nat → Str → Option (Value × Str)
  | _ + 1, '"' :: s => (scanString s).map fun p => (.str p.1, p.2)
  | n + 1, '[' :: s =>
    match skip s with
    | ']' :: s => some (.arr [], s)
    | s => (scanItems n s).map fun p => (.arr p.1, p.2)
  | n + 1, '{' :: s =>
    match skip s with
    | '}' :: s => some (.obj [], s)
    | s => (scanMembers n s).map fun p => (.obj p.1, p.2)
  | _, _ => none

/-- The items of an array and its closing bracket. -/
def scanItems : Nat → Str → Option (List Value × Str)
  | 0, _ => none
  | n + 1, s => do
    let (x, s) ← scan n s
    match skip s with
    | ']' :: s => some ([x], s)
    | ',' :: s => (scanItems n (skip s)).map fun p => (x :: p.1, p.2)
    | _ => none

/-- The members of an object and its closing bracket. -/
def scanMembers : Nat → Str → Option (List (Str × Value) × Str)
  | n + 1, '"' :: s => do
    let (k, s) ← scanString s
    match skip s with
    | ':' :: s =>
      let (v, s) ← scan n (skip s)
      match skip s with
      | '}' :: s => some ([(k, v)], s)
      | ',' :: s => (scanMembers n (skip s)).map fun p => ((k, v) :: p.1, p.2)
      | _ => none
    | _ => none
  | _, _ => none

end

/-- `json.loads`. Every call of the scanner but those for items reads a character. -/
def loads (s : Str) : Option Value := do
  let (v, rest) ← scan (2 * s.length + 1) (skip s)
  if skip rest = [] then some v else none

/-! ## Strings are read back -/

theorem hexValue_hexDigit : ∀ n < 16, hexValue (hexDigit n) = some n := by decide

theorem hexChar_hexDigit {c : Char} (h : c.toNat < 0x20) :
    hexChar '0' '0' (hexDigit (c.toNat / 16)) (hexDigit (c.toNat % 16)) = some c := by
  have hZero : hexValue '0' = some 0 := by decide
  have hCode : ((0 * 16 + 0) * 16 + c.toNat / 16) * 16 + c.toNat % 16 = c.toNat := by omega
  have hValid : c.toNat.isValidChar := .inl (by omega)
  simp only [hexChar, hZero, hexValue_hexDigit _ (show c.toNat / 16 < 16 by omega),
    hexValue_hexDigit _ (show c.toNat % 16 < 16 by omega), Option.bind_eq_bind, Option.bind_some,
    hCode, if_pos hValid, Char.ofNat_toNat]

/-- A character that is written as it is. -/
theorem scanString_plain {c : Char} (hQuote : c ≠ '"') (hBackslash : c ≠ '\\')
    (hControl : ¬ c.toNat < 0x20) (s : Str) :
    scanString (c :: s) = (scanString s).map fun p => (c :: p.1, p.2) := by
  rw [scanString.eq_def]
  split
  · rename_i h
    cases h
    exact absurd rfl hQuote
  · rename_i h
    cases h
    exact absurd rfl hBackslash
  · rename_i h
    cases h
    exact absurd rfl hBackslash
  · rename_i h
    cases h
    rw [if_neg (not_or.2 ⟨hBackslash, hControl⟩)]
  · rename_i h
    cases h

theorem scanString_escape (c : Char) (s : Str) :
    scanString (escape c ++ s) = (scanString s).map fun p => (c :: p.1, p.2) := by
  unfold escape
  split_ifs with h1 h2 h3 h4 h5 h6 h7 h8
  · subst h1
    rfl
  · subst h2
    rfl
  · subst h3
    rfl
  · subst h4
    rfl
  · subst h5
    rfl
  · subst h6
    rfl
  · subst h7
    rfl
  · simp only [List.cons_append, List.nil_append, scanString, hexChar_hexDigit h8,
      Option.bind_eq_bind, Option.bind_some]
  · exact scanString_plain h1 h2 h8 s

theorem scanString_quote (s rest : Str) :
    scanString (s.flatMap escape ++ '"' :: rest) = some (s, rest) := by
  induction s with
  | nil => rw [List.flatMap_nil, List.nil_append, scanString]
  | cons c s ih =>
    rw [List.flatMap_cons, List.append_assoc, scanString_escape, ih]
    rfl

/-! ## Values are read back -/

theorem skip_of_head {c : Char} (h : isWhitespace c = false) (s : Str) :
    skip (c :: s) = c :: s := by
  rw [skip, List.dropWhile_cons_of_neg]
  simpa using h

theorem skip_newline (level : Nat) (s : Str) : skip (newline level ++ s) = skip s := by
  have hSpace : ∀ c ∈ newline level, isWhitespace c := by
    intro c hc
    rcases List.mem_cons.1 hc with rfl | hc
    · rfl
    · rw [List.eq_of_mem_replicate hc]
      rfl
  exact List.dropWhile_append_of_pos hSpace

/-- A value begins with a quotation mark or an opening bracket. -/
theorem dumps_head (level : Nat) (v : Value) :
    ∃ c s, dumps level v = c :: s ∧ isWhitespace c = false ∧ c ≠ ']' := by
  cases v with
  | str s => exact ⟨'"', _, by rw [dumps, quote], by decide, by decide⟩
  | arr items =>
    rw [dumps]
    cases dumpsItems (level + 1) items with
    | nil => exact ⟨'[', _, rfl, by decide, by decide⟩
    | cons p ps => exact ⟨'[', _, rfl, by decide, by decide⟩
  | obj members =>
    rw [dumps]
    cases dumpsMembers (level + 1) members with
    | nil => exact ⟨'{', _, rfl, by decide, by decide⟩
    | cons p ps => exact ⟨'{', _, rfl, by decide, by decide⟩

theorem skip_dumps (level : Nat) (v : Value) (s : Str) :
    skip (dumps level v ++ s) = dumps level v ++ s := by
  obtain ⟨c, t, hv, hc, -⟩ := dumps_head level v
  rw [hv, List.cons_append, skip_of_head hc]

mutual

/-- The calls of the scanner that a value takes. -/
def size : Value → Nat
  | .str _ => 1
  | .arr items => 1 + sizeItems items
  | .obj members => 1 + sizeMembers members

def sizeItems : List Value → Nat
  | [] => 0
  | x :: xs => 1 + size x + sizeItems xs

def sizeMembers : List (Str × Value) → Nat
  | [] => 0
  | (_, v) :: ms => 1 + size v + sizeMembers ms

end

/-- The pieces behind the first one, and the closing bracket. -/
def trailer (level : Nat) (closing : Char) (pieces : List Str) : Str :=
  (pieces.flatMap fun p => ',' :: newline (level + 1) ++ p) ++ newline level ++ [closing]

theorem bracket_cons (level : Nat) (opening closing : Char) (piece : Str) (pieces : List Str) :
    bracket level opening closing (piece :: pieces) =
      opening :: newline (level + 1) ++ piece ++ trailer level closing pieces := by
  simp only [bracket, trailer, List.append_assoc]

theorem skip_trailer_nil {closing : Char} (h : isWhitespace closing = false) (level : Nat)
    (rest : Str) : skip (trailer level closing [] ++ rest) = closing :: rest := by
  rw [trailer, List.flatMap_nil, List.nil_append, List.append_assoc, skip_newline]
  exact skip_of_head h rest

theorem skip_trailer_cons (level : Nat) (closing : Char) (piece : Str) (pieces : List Str)
    (rest : Str) : skip (trailer level closing (piece :: pieces) ++ rest) =
      ',' :: (newline (level + 1) ++ (piece ++ (trailer level closing pieces ++ rest))) := by
  rw [trailer, List.flatMap_cons]
  simp only [List.cons_append, List.append_assoc, trailer]
  exact skip_of_head (by decide) _

/-- With `n` calls the scanner reads what is small enough. -/
structure Reads (n : Nat) : Prop where
  value : ∀ v level rest, size v ≤ n → scan n (dumps level v ++ rest) = some (v, rest)
  items : ∀ x xs level rest, sizeItems (x :: xs) ≤ n →
    scanItems n (dumps (level + 1) x ++
      (trailer level ']' (dumpsItems (level + 1) xs) ++ rest)) = some (x :: xs, rest)
  members : ∀ k v ms level rest, sizeMembers ((k, v) :: ms) ≤ n →
    scanMembers n (quote k ++ ([':', ' '] ++ (dumps (level + 1) v ++
      (trailer level '}' (dumpsMembers (level + 1) ms) ++ rest)))) = some ((k, v) :: ms, rest)

theorem reads_zero : Reads 0 where
  value v _ _ h := by cases v <;> simp [size] at h
  items x xs _ _ h := by simp [sizeItems] at h
  members k v ms _ _ h := by simp [sizeMembers] at h

theorem scan_succ {n : Nat} (ih : Reads n) (v : Value) (level : Nat) (rest : Str)
    (h : size v ≤ n + 1) : scan (n + 1) (dumps level v ++ rest) = some (v, rest) := by
  cases v with
  | str s =>
    rw [dumps, quote, List.cons_append, List.append_assoc, List.singleton_append, scan,
      scanString_quote]
    rfl
  | arr items =>
    cases items with
    | nil => rfl
    | cons x xs =>
      rw [size] at h
      have hItems := ih.items x xs level rest (by omega)
      obtain ⟨c, t, hx, hc, hne⟩ := dumps_head (level + 1) x
      rw [dumps, dumpsItems, bracket_cons]
      simp only [List.cons_append, List.append_assoc, scan, skip_newline, skip_dumps]
      rw [hx, List.cons_append] at hItems ⊢
      split
      · rename_i heq
        cases heq
        exact absurd rfl hne
      · rw [hItems]
        rfl
  | obj members =>
    cases members with
    | nil => rfl
    | cons m ms =>
      obtain ⟨k, v⟩ := m
      rw [size] at h
      have hMembers := ih.members k v ms level rest (by omega)
      rw [dumps, dumpsMembers, bracket_cons]
      simp only [List.cons_append, List.append_assoc, scan, skip_newline] at hMembers ⊢
      rw [quote, List.cons_append, skip_of_head (by decide)]
      rw [quote, List.cons_append] at hMembers
      split
      · rename_i heq
        cases heq
      · rw [hMembers]
        rfl

theorem scanItems_succ {n : Nat} (ih : Reads n) (x : Value) (xs : List Value) (level : Nat)
    (rest : Str) (h : sizeItems (x :: xs) ≤ n + 1) :
    scanItems (n + 1) (dumps (level + 1) x ++
      (trailer level ']' (dumpsItems (level + 1) xs) ++ rest)) = some (x :: xs, rest) := by
  rw [sizeItems] at h
  rw [scanItems, ih.value x (level + 1) _ (by omega)]
  cases xs with
  | nil => simp only [dumpsItems, skip_trailer_nil (show isWhitespace ']' = false by decide),
      Option.bind_eq_bind, Option.bind_some]
  | cons y ys =>
    have hItems := ih.items y ys level rest (by omega)
    simp only [dumpsItems, skip_trailer_cons, skip_newline, skip_dumps, hItems,
      Option.bind_eq_bind, Option.bind_some, Option.map_some]

theorem scanMembers_succ {n : Nat} (ih : Reads n) (k : Str) (v : Value)
    (ms : List (Str × Value)) (level : Nat) (rest : Str)
    (h : sizeMembers ((k, v) :: ms) ≤ n + 1) :
    scanMembers (n + 1) (quote k ++ ([':', ' '] ++ (dumps (level + 1) v ++
      (trailer level '}' (dumpsMembers (level + 1) ms) ++ rest)))) =
        some ((k, v) :: ms, rest) := by
  rw [sizeMembers] at h
  have hSpace : ∀ s : Str, skip (' ' :: s) = skip s := fun s => rfl
  have hColon : ∀ s : Str, skip (':' :: s) = ':' :: s := fun s => rfl
  rw [quote, List.cons_append, List.append_assoc, List.singleton_append, scanMembers,
    scanString_quote]
  simp only [List.cons_append, List.nil_append, hColon, hSpace, skip_dumps,
    ih.value v (level + 1) _ (show size v ≤ n by omega), Option.bind_eq_bind, Option.bind_some]
  cases ms with
  | nil => simp only [dumpsMembers, skip_trailer_nil (show isWhitespace '}' = false by decide)]
  | cons m ms =>
    obtain ⟨l, w⟩ := m
    have hMembers := ih.members l w ms level rest (by omega)
    have hQuote : ∀ s : Str, skip (quote l ++ s) = quote l ++ s := fun s => by
      rw [quote, List.cons_append]
      exact skip_of_head (by decide) _
    simp only [dumpsMembers, skip_trailer_cons, skip_newline, List.append_assoc, hQuote]
    simp only [hMembers, Option.map_some]

theorem reads (n : Nat) : Reads n := by
  induction n with
  | zero => exact reads_zero
  | succ n ih => exact ⟨scan_succ ih, scanItems_succ ih, scanMembers_succ ih⟩

/-! ## The text is long enough -/

theorem length_quote_pos (s : Str) : 0 < (quote s).length := Nat.succ_pos _

theorem length_bracket (level : Nat) (opening closing : Char) (pieces : List Str) :
    (pieces.map fun p => p.length + 1).sum < (bracket level opening closing pieces).length := by
  cases pieces with
  | nil => exact Nat.succ_pos _
  | cons p ps =>
    have hTail : (ps.map fun p => p.length + 1).sum ≤
        (ps.flatMap fun p => ',' :: newline (level + 1) ++ p).length := by
      induction ps with
      | nil => exact Nat.le_refl _
      | cons q qs ih =>
        simp only [List.map_cons, List.sum_cons, List.flatMap_cons, List.length_append,
          List.length_cons] at ih ⊢
        omega
    have hLine : 0 < (newline (level + 1)).length := Nat.succ_pos _
    rw [bracket_cons, trailer]
    simp only [List.map_cons, List.sum_cons, List.length_append, List.length_cons]
    omega

mutual

theorem size_le_length : ∀ (v : Value) (level : Nat), size v ≤ (dumps level v).length
  | .str s, level => length_quote_pos s
  | .arr items, level => by
    have hItems := sizeItems_le_length items (level + 1)
    have hBracket := length_bracket level '[' ']' (dumpsItems (level + 1) items)
    rw [size, dumps]
    omega
  | .obj members, level => by
    have hMembers := sizeMembers_le_length members (level + 1)
    have hBracket := length_bracket level '{' '}' (dumpsMembers (level + 1) members)
    rw [size, dumps]
    omega

theorem sizeItems_le_length : ∀ (items : List Value) (level : Nat),
    sizeItems items ≤ ((dumpsItems level items).map fun p => p.length + 1).sum
  | [], _ => Nat.le_refl _
  | x :: xs, level => by
    have hHead := size_le_length x level
    have hTail := sizeItems_le_length xs level
    rw [sizeItems, dumpsItems, List.map_cons, List.sum_cons]
    omega

theorem sizeMembers_le_length : ∀ (members : List (Str × Value)) (level : Nat),
    sizeMembers members ≤ ((dumpsMembers level members).map fun p => p.length + 1).sum
  | [], _ => Nat.le_refl _
  | (k, v) :: ms, level => by
    have hHead := size_le_length v level
    have hTail := sizeMembers_le_length ms level
    rw [sizeMembers, dumpsMembers, List.map_cons, List.sum_cons, List.length_append]
    omega

end

/-- **Round trip.** `loads` reads back what `dumps` writes, with white space behind it. -/
theorem loads_dumps (v : Value) {w : Str} (hw : ∀ c ∈ w, isWhitespace c) :
    loads (dumps 0 v ++ w) = some v := by
  have hSize : size v ≤ 2 * (dumps 0 v ++ w).length + 1 := by
    have hLength := size_le_length v 0
    rw [List.length_append]
    omega
  have hSkip : skip w = [] := by
    have hEnd : skip (w ++ []) = skip [] := List.dropWhile_append_of_pos hw
    rwa [List.append_nil] at hEnd
  rw [loads, skip_dumps, (reads _).value v 0 w hSize]
  simp only [Option.bind_eq_bind, Option.bind_some, hSkip, if_true]

end XfceLinux.Lib.Json
