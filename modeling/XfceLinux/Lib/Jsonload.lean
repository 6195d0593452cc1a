import XfceLinux.Lib.Json

/-!
# Reading any JSON text

`json.loads` with numbers, `true`, `false` and `null`, which the texts of `Lib.Json` do not
hold. A number is kept as it is written. An escape for half of a surrogate pair stands for no
character and is not read.
-/

namespace XfceLinux.Lib.Jsonload

open Text
open Json (hexValue skip unescape)

inductive Value
  | null
  | bool (b : Bool)
  | number (text : Str)
  | str (s : Str)
  | arr (items : List Value)
  | obj (members : List (Str × Value))

/-- `d.get(key)` of a dictionary. -/
def Value.get? (key : Str) : Value → Option Value
  | .obj members => members.reverse.lookup key
  | _ => none

def Value.str? : Value → Option Str
  | .str s => some s
  | _ => none

/-! ## Strings -/

/-- The number of four hexadecimal digits. -/
def codeUnit (a b c d : Char) : Option Nat := do
  return (((← hexValue a) * 16 + (← hexValue b)) * 16 + (← hexValue c)) * 16 + (← hexValue d)

/-- `scanstring`, behind the opening quotation mark. -/
def scanString : Str → Option (Str × Str)
  | '"' :: s => some ([], s)
  | '\\' :: 'u' :: a :: b :: c :: d :: s => do
    let n ← codeUnit a b c d
    if 0xd800 ≤ n ∧ n < 0xdc00 then
      match s with
      | '\\' :: 'u' :: e :: f :: g :: h :: s => do
        let m ← codeUnit e f g h
        if 0xdc00 ≤ m ∧ m < 0xe000 then
          (scanString s).map fun p =>
            (Char.ofNat (0x10000 + (n - 0xd800) * 0x400 + (m - 0xdc00)) :: p.1, p.2)
        else none
      | _ => none
    else if 0xdc00 ≤ n ∧ n < 0xe000 then none
    else (scanString s).map fun p => (Char.ofNat n :: p.1, p.2)
  | '\\' :: e :: s => do
    let x ← unescape e
    (scanString s).map fun p => (x :: p.1, p.2)
  | c :: s =>
    if c = '\\' ∨ c.toNat < 0x20 then none else (scanString s).map fun p => (c :: p.1, p.2)
  | [] => none

/-! ## Numbers and constants -/

def scanInteger : Str → Option (Str × Str)
  | '0' :: s => some (['0'], s)
  | c :: s =>
    if c.isDigit then some (c :: s.takeWhile Char.isDigit, s.dropWhile Char.isDigit) else none
  | [] => none

def scanFraction : Str → Str × Str
  | '.' :: s =>
    if s.takeWhile Char.isDigit = [] then ([], '.' :: s)
    else ('.' :: s.takeWhile Char.isDigit, s.dropWhile Char.isDigit)
  | s => ([], s)

/-- An optional sign out of `signs`. -/
def scanSign (signs : List Char) : Str → Str × Str
  | c :: s => if signs.contains c then ([c], s) else ([], c :: s)
  | [] => ([], [])

def scanExponent : Str → Str × Str
  | c :: s =>
    let (sign, t) := scanSign ['+', '-'] s
    if (c = 'e' ∨ c = 'E') ∧ t.takeWhile Char.isDigit ≠ [] then
      (c :: sign ++ t.takeWhile Char.isDigit, t.dropWhile Char.isDigit)
    else ([], c :: s)
  | [] => ([], [])

/-- `NUMBER_RE`; `int` refuses an integer that is too long. -/
def scanNumber (s : Str) : Option (Str × Str) := do
  let (sign, s) := scanSign ['-'] s
  let (integer, s) ← scanInteger s
  let (fraction, s) := scanFraction s
  let (exponent, s) := scanExponent s
  if fraction = [] ∧ exponent = [] ∧ intMaxStrDigits < integer.length then none
  else some (sign ++ integer ++ fraction ++ exponent, s)

def constants : List (Str × Value) :=
  [("null".toList, .null), ("true".toList, .bool true), ("false".toList, .bool false)] ++
    ["NaN".toList, "Infinity".toList, "-Infinity".toList].map fun w => (w, .number w)

/-- A constant or a number at the start of the text, and the rest. -/
def scanScalar (s : Str) : Option (Value × Str) :=
  match constants.find? fun p => p.1.isPrefixOf s with
  | some (w, v) => some (v, s.drop w.length)
  | none => (scanNumber s).map fun p => (.number p.1, p.2)

/-! ## Values -/

mutual

/-- `scan_once`: a value at the start of the text, and the rest. -/
def scan : Nat → Str → Option (Value × Str)
  | _ + 1, '"' :: s => (scanString s).map fun p => (.str p.1, p.2)
  | n + 1, '[' :: s =>
    match skip s with
    | ']' :: s => some (.arr [], s)
    | s => (scanItems n s).map fun p => (.arr p.1, p.2)
  | n + 1, '{' :: s =>
    match skip s with
    | '}' :: s => some (.obj [], s)
    | s => (scanMembers n s).map fun p => (.obj p.1, p.2)
  | _ + 1, s => scanScalar s
  | 0, _ => none

/-- The items of an array and its closing bracket. -/
def scanItems : Nat → Str → Option (List Value × Str)
  | 0, _ => none
  | n + 1, s => do
    let (x, s) ← scan n s
    match skip s with
    | ']' :: s => some ([x], s)
    | ',' :: s => (scanItems n (skip s)).map fun p => (x :: p.1, p.2)
    | _ => none

/-- The members of an object and its closing bracket. -/
def scanMembers : Nat → Str → Option (List (Str × Value) × Str)
  | n + 1, '"' :: s => do
    let (k, s) ← scanString s
    match skip s with
    | ':' :: s =>
      let (v, s) ← scan n (skip s)
      match skip s with
      | '}' :: s => some ([(k, v)], s)
      | ',' :: s => (scanMembers n (skip s)).map fun p => ((k, v) :: p.1, p.2)
      | _ => none
    | _ => none
  | _, _ => none

end

/-- `json.loads` -/
def loads (s : Str) : Option Value := do
  let (v, rest) ← scan (2 * s.length + 1) (skip s)
  if skip rest = [] then some v else none

end XfceLinux.Lib.Jsonload
