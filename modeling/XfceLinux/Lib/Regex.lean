import XfceLinux.Lib.Text

/-!
# Regular expressions of the `re` module

The fragment of Python's syntax that the scripts use, with its matching order. `run r c`
lists every way in which `r` can match at the point `c`, the one that `re` tries first at
the head: the greedy repetition lists longer matches first, the lazy one shorter matches
first, an alternative its left side first. `re.match` takes the head of the list, `search`
the head at the first point that has a match, and `sub` goes on behind each match.
-/

namespace XfceLinux.Lib.Regex

open Text

inductive Re where
  | eps
  /-- `^` -/
  | bos
  /-- `$` -/
  | eos
  /-- one character of a class -/
  | set (p : Char → Bool)
  | seq (a b : Re)
  | alt (a b : Re)
  /-- `a*` -/
  | star (a : Re)
  /-- `a*?` -/
  | lazyStar (a : Re)
  /-- `(a)`, with its number -/
  | group (n : Nat) (a : Re)

/-- A point of the text during matching. -/
structure Cur where
  /-- Whether this is the start of the text. -/
  first : Bool
  /-- The text ahead. -/
  rest : Str
  /-- The groups captured so far, the latest first. -/
  groups : List (Nat × Str)
deriving DecidableEq, Repr

/-- The text captured by group `n`. -/
def Cur.group (c : Cur) (n : Nat) : Str := (c.groups.lookup n).getD []

/-- Greedy repetition: at most `n` rounds of `f`, each of which moves on. -/
def greedy (f : Cur → List Cur) : Nat → Cur → List Cur
  | 0, c => [c]
  | n + 1, c => ((f c).filter fun d => d.rest.length < c.rest.length).flatMap (greedy f n) ++ [c]

/-- Lazy repetition: at most `n` rounds of `f`, each of which moves on. -/
def reluctant (f : Cur → List Cur) : Nat → Cur → List Cur
  | 0, c => [c]
  | n + 1, c =>
    c :: ((f c).filter fun d => d.rest.length < c.rest.length).flatMap (reluctant f n)

/-- All matches of `r` at `c`, in the order in which `re` tries them. -/
def run : Re → Cur → List Cur
  | .eps, c => [c]
  | .bos, c => if c.first then [c] else []
  | .eos, c => if c.rest = [] ∨ c.rest = ['\n'] then [c] else []
  | .set p, c =>
    match c.rest with
    | [] => []
    | x :: xs => if p x then [{ c with first := false, rest := xs }] else []
  | .seq a b, c => (run a c).flatMap (run b)
  | .alt a b, c => run a c ++ run b c
  | .star a, c => greedy (run a) c.rest.length c
  | .lazyStar a, c => reluctant (run a) c.rest.length c
  | .group n a, c =>
    (run a c).map fun d =>
      { d with groups := (n, c.rest.take (c.rest.length - d.rest.length)) :: d.groups }

/-! ## Derived forms -/

/-- A literal text. -/
def lit (s : String) : Re := s.toList.foldr (fun x r => .seq (.set (· == x)) r) .eps

/-- `a+` -/
def plus (a : Re) : Re := .seq a (.star a)

/-- `a+?` -/
def lazyPlus (a : Re) : Re := .seq a (.lazyStar a)

/-- `a?` -/
def opt (a : Re) : Re := .alt a .eps

/-- `a{lo,lo+extra}` -/
def rep (a : Re) : Nat → Nat → Re
  | 0, 0 => .eps
  | 0, n + 1 => opt (.seq a (rep a 0 n))
  | lo + 1, n => .seq a (rep a lo n)

/-- A sequence of expressions. -/
def cat (rs : List Re) : Re := rs.foldr .seq .eps

/-- `.` -/
def dot : Re := .set (· != '\n')

/-- `\s` -/
def space : Re := .set isSpace

/-- The characters of a text, as in `[...]`. -/
def oneOf (s : String) (c : Char) : Bool := s.toList.contains c

/-- A range of characters, as in `[a-z]`. -/
def range (a b : Char) (c : Char) : Bool := a ≤ c && c ≤ b

/-! ## Matching, searching and replacing -/

/-- `r.match(s)` -/
def matchStart (r : Re) (s : Str) : Option Cur := (run r ⟨true, s, []⟩).head?

/-- `r.search(s)`, from a point of the text on. -/
def searchFrom (r : Re) (first : Bool) (s : Str) : Option Cur :=
  match (run r ⟨first, s, []⟩).head?, s with
  | some c, _ => some c
  | none, [] => none
  | none, _ :: s => searchFrom r false s

/-- `r.search(s)` -/
def search (r : Re) (s : Str) : Option Cur := searchFrom r true s

/-- `r.sub(repl, s)` from a point of the text on, for an `r` that matches no empty text;
`n` is at least the length of `s`. -/
def subFrom (r : Re) (repl : Str) : Nat → Bool → Str → Str
  | 0, _, s => s
  | _, _, [] => []
  | n + 1, first, x :: s =>
    match (run r ⟨first, x :: s, []⟩).head? with
    | some c => repl ++ subFrom r repl n false c.rest
    | none => x :: subFrom r repl n false s

/-- `r.sub(repl, s)`, for an `r` that matches no empty text -/
def sub (r : Re) (repl s : Str) : Str := subFrom r repl s.length true s

/-- The matches of `r.findall(s)` from a point of the text on, as for `subFrom`. -/
def findallFrom (r : Re) : Nat → Bool → Str → List Cur
  | 0, _, _ => []
  | _, _, [] => []
  | n + 1, first, x :: s =>
    match (run r ⟨first, x :: s, []⟩).head? with
    | some c => c :: findallFrom r n false c.rest
    | none => findallFrom r n false s

/-- `r.findall(s)`, for an `r` that matches no empty text -/
def findall (r : Re) (s : Str) : List Cur := findallFrom r s.length true s

end XfceLinux.Lib.Regex
