import XfceLinux.Fakecap.Manifest

/-!
# The two readers of a manifest

`fakecap-restore` reads a manifest with `fgets`, a piece of at most `sizeof(line) - 1`
bytes at a time, and `manifest_load` reads the whole file. On short lines without NUL both
extract the same entries.
-/

namespace XfceLinux.Fakecap

open Lib Lib.Text

/-! ## `fgets` -/

/-- `sizeof(line)` and `sizeof(fullpath)` -/
def bufferSize : Nat := 8192

/-- What successive calls of `fgets` with room for `n` bytes return, when `cur` is read. -/
def fgetsFrom (n : Nat) : Bytes → Bytes → List Bytes
  | cur, [] => if cur = [] then [] else [cur]
  | cur, b :: file =>
    let cur := cur ++ [b]
    if b = newline ∨ cur.length = n then cur :: fgetsFrom n [] file else fgetsFrom n cur file

/-- The lines that `fgets` reads into the buffer, which keeps a byte for the terminator. -/
def fgetsLines (file : Bytes) : List Bytes := fgetsFrom (bufferSize - 1) [] file

/-- The line without its newline. -/
def stripNewline (line : Bytes) : Bytes :=
  if line.getLast? = some newline then line.dropLast else line

/-- The entries that the loop of `main` extracts. -/
def restoreEntries (file : Bytes) : List Entry :=
  (fgetsLines file).filterMap fun line => entryOf (stripNewline (cString line))

/-! ## Short lines -/

theorem cString_of_notMem {s : Bytes} (h : 0 ∉ s) : cString s = s := by
  refine List.takeWhile_eq_self_iff.mpr fun b hb => ?_
  have hne : b ≠ 0 := fun hzero => h (hzero ▸ hb)
  simpa using hne

theorem entries_unlines {ls : List Bytes} (h : ∀ l ∈ ls, newline ∉ l) :
    entries (Lines.unlines newline ls) = ls.filterMap entryOf := by
  have hsplit := Lines.splitOn_unlines_append h []
  rw [List.append_nil] at hsplit
  rw [entries, hsplit, List.filterMap_append]
  exact List.append_nil _

theorem fgetsFrom_line {n : Nat} {line : Bytes} (hline : newline ∉ line) (cur file : Bytes)
    (hfit : cur.length + line.length < n) :
    fgetsFrom n cur (line ++ newline :: file) =
      (cur ++ line ++ [newline]) :: fgetsFrom n [] file := by
  induction line generalizing cur with
  | nil => simp [fgetsFrom]
  | cons b line ih =>
    rw [List.mem_cons, not_or] at hline
    rw [List.length_cons] at hfit
    have hlen : (cur ++ [b]).length ≠ n := by
      rw [List.length_append, List.length_singleton]
      omega
    have hstop : ¬ (b = newline ∨ (cur ++ [b]).length = n) :=
      not_or.mpr ⟨Ne.symm hline.1, hlen⟩
    have hnext := ih hline.2 (cur ++ [b]) (by simp; omega)
    rw [List.cons_append, fgetsFrom, if_neg hstop, hnext]
    simp

theorem fgetsFrom_unlines {n : Nat} {ls : List Bytes} (h : ∀ l ∈ ls, newline ∉ l)
    (hfit : ∀ l ∈ ls, l.length < n) :
    fgetsFrom n [] (Lines.unlines newline ls) = ls.map (· ++ [newline]) := by
  induction ls with
  | nil => rfl
  | cons l ls ih =>
    have hcons : Lines.unlines newline (l :: ls) =
        l ++ newline :: Lines.unlines newline ls := by
      simp [Lines.unlines]
    have hl := hfit l List.mem_cons_self
    rw [hcons, fgetsFrom_line (h l List.mem_cons_self) [] _ (by simpa using hl),
      ih (fun m hm => h m (List.mem_cons_of_mem _ hm))
        fun m hm => hfit m (List.mem_cons_of_mem _ hm)]
    rfl

/-- **Readers.** On lines without NUL that fit into the buffer with their newline, both
readers extract the same entries in the same order. -/
theorem restoreEntries_unlines {ls : List Bytes} (h : ∀ l ∈ ls, newline ∉ l)
    (hzero : ∀ l ∈ ls, 0 ∉ l) (hfit : ∀ l ∈ ls, l.length ≤ 8190) :
    restoreEntries (Lines.unlines newline ls) = entries (Lines.unlines newline ls) := by
  have hread : fgetsLines (Lines.unlines newline ls) = ls.map (· ++ [newline]) := by
    refine fgetsFrom_unlines h fun l hl => ?_
    have := hfit l hl
    simp only [bufferSize]
    omega
  rw [entries_unlines h, restoreEntries, hread, List.filterMap_map]
  refine List.filterMap_congr fun l hl => ?_
  have hstring : cString (l ++ [newline]) = l ++ [newline] := by
    refine cString_of_notMem ?_
    rw [List.mem_append, not_or]
    exact ⟨hzero l hl, by decide⟩
  simp [hstring, stripNewline]

end XfceLinux.Fakecap
