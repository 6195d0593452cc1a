import XfceLinux.Filemap.Listing
import XfceLinux.Lib.Sequences

/-!
# Colour in the output of `bst`

`just bst` runs with `--colors`. The readers split the output into lines before they take
the escape sequences out of each of them. No sequence holds a line break, so the lines of a
decorated text are the decorated lines of the plain one; a sequence inside a line break
only adds a line that holds nothing else, and both readers skip empty lines
(`colour_ignored`).
-/

namespace XfceLinux.Filemap

open Lib Lib.Text Lib.Regex

/-! ## The readers -/

/-- What `bst` returns for what the command prints. -/
def bst (stdout : Str) : Str := universalNewlines stdout

/-- What `list_elements` returns for the output of `bst`. -/
def listElements (out : Str) : List Str :=
  ((splitlines out).filter fun line =>
    ".bst".toList.isSuffixOf (strip isSpace (stripAnsi line))).map
      fun line => strip isSpace (stripAnsi line)

/-! ## Decorated texts -/

/-- `out` is `plain` with sequences put in at any places. -/
inductive Decorates : Str → Str → Prop
  | nil : Decorates [] []
  | char (c : Char) {plain out : Str} : Decorates plain out →
      Decorates (c :: plain) (c :: out)
  | escape {w plain out : Str} : Escape w → Decorates plain out → Decorates plain (w ++ out)

theorem decorates_refl (plain : Str) : Decorates plain plain := by
  induction plain with
  | nil => exact .nil
  | cons c plain ih => exact .char c ih

/-! ## Sequences are taken out -/

theorem stripAnsi_of_decorates {plain out : Str} (h : Decorates plain out)
    (hplain : '\x1b' ∉ plain) : stripAnsi out = plain := by
  induction h with
  | nil => rfl
  | char c h ih =>
    have hc : c ≠ '\x1b' := fun he => hplain (he ▸ List.mem_cons_self)
    have hrest := ih fun hmem => hplain (List.mem_cons_of_mem c hmem)
    rw [stripAnsi, reads_ansiEscape.sub_cons_of_ne hc]
    exact congrArg (c :: ·) hrest
  | escape hw h ih =>
    rw [stripAnsi, reads_ansiEscape.sub_append_left hw, List.nil_append]
    exact ih hplain

/-! ## Line by line -/

theorem not_isLineBreak_of_escape {w : Str} (h : Escape w) : ∀ c ∈ w, isLineBreak c = false := by
  obtain ⟨body, last, hbody, hlast, rfl⟩ := h
  intro c hc
  rcases List.mem_append.mp hc with hc | hc
  · rcases List.mem_append.mp hc with hc | hc
    · have hAll : "\x1b[".toList.all fun c => !isLineBreak c := by decide
      simpa using List.all_eq_true.mp hAll c hc
    · have := isParameter_iff.mp (hbody c hc)
      simp only [isLineBreak, Bool.or_eq_false_iff, Bool.and_eq_false_iff,
        decide_eq_false_iff_not, beq_eq_false_iff_ne]
      omega
  · have := isLetter_iff.mp hlast
    rw [List.mem_singleton.mp hc]
    simp only [isLineBreak, Bool.or_eq_false_iff, Bool.and_eq_false_iff,
      decide_eq_false_iff_not, beq_eq_false_iff_ne]
    omega

/-- The pieces between line breaks are decorated one by one. -/
theorem Decorates.pieces {plain out : Str} (h : Decorates plain out) :
    List.Forall₂ Decorates (plain.splitOnP isLineBreak) (out.splitOnP isLineBreak) := by
  induction h with
  | nil => exact .cons .nil .nil
  | @char c plain out h ih =>
    obtain ⟨l, ls, hl⟩ := List.exists_cons_of_ne_nil (List.splitOnP_ne_nil isLineBreak plain)
    obtain ⟨m, ms, hm⟩ := List.exists_cons_of_ne_nil (List.splitOnP_ne_nil isLineBreak out)
    rw [List.splitOnP_cons_eq_if_modifyHead, List.splitOnP_cons_eq_if_modifyHead]
    split
    · exact .cons .nil ih
    · rw [hl, hm] at ih ⊢
      obtain ⟨hhead, htail⟩ := List.forall₂_cons.mp ih
      exact .cons (.char c hhead) htail
  | @escape w plain out hw h ih =>
    obtain ⟨l, ls, hl⟩ := List.exists_cons_of_ne_nil (List.splitOnP_ne_nil isLineBreak plain)
    obtain ⟨m, ms, hm⟩ := List.exists_cons_of_ne_nil (List.splitOnP_ne_nil isLineBreak out)
    rw [splitOnP_append_of_forall (not_isLineBreak_of_escape hw)]
    rw [hl, hm] at ih ⊢
    obtain ⟨hhead, htail⟩ := List.forall₂_cons.mp ih
    exact .cons (.escape hw hhead) htail

theorem map_stripAnsi_pieces {plain out : Str} (h : Decorates plain out)
    (hplain : '\x1b' ∉ plain) :
    (out.splitOnP isLineBreak).map stripAnsi = plain.splitOnP isLineBreak := by
  have hPieces : ∀ {ls ms : List Str}, List.Forall₂ Decorates ls ms →
      (∀ l ∈ ls, '\x1b' ∉ l) → ms.map stripAnsi = ls := by
    intro ls ms hls
    induction hls with
    | nil => intro _; rfl
    | cons hhead _ ih =>
      intro hno
      rw [List.map_cons, stripAnsi_of_decorates hhead (hno _ List.mem_cons_self),
        ih fun l hl => hno l (List.mem_cons_of_mem _ hl)]
  apply hPieces h.pieces
  intro l hl hmem
  exact hplain (mem_of_mem_splitOnP hl hmem)

/-! ## The readers skip empty lines -/

/-- The lines that say anything. -/
def said (out : Str) : List Str := ((splitlines out).map stripAnsi).filter (!·.isEmpty)

theorem listElements_eq (out : Str) :
    listElements out =
      ((said out).filter fun line => ".bst".toList.isSuffixOf (strip isSpace line)).map
        (strip isSpace) := by
  unfold listElements said
  induction splitlines out with
  | nil => rfl
  | cons line lines ih =>
    simp only [List.filter_cons, List.map_cons] at ih ⊢
    cases hline : stripAnsi line with
    | nil =>
      have hempty : ".bst".toList.isSuffixOf (strip isSpace []) = false := by decide
      rw [hempty]
      exact ih
    | cons c s =>
      simp only [List.isEmpty_cons, Bool.not_false, if_true, List.filter_cons]
      split
      · rw [List.map_cons, List.map_cons, ih, hline]
      · exact ih

theorem listAllContents_eq (out : Str) :
    listAllContents out = ((said out).foldl readLine ⟨[], none⟩).result := by
  have hSkip : ∀ (ls : List Str) (st : Reading),
      (ls.filter (!·.isEmpty)).foldl readLine st = ls.foldl readLine st := by
    intro ls
    induction ls with
    | nil => intro st; rfl
    | cons line ls ih =>
      intro st
      cases line with
      | nil => exact ih st
      | cons c s => exact ih (readLine st (c :: s))
  rw [listAllContents, said, hSkip]

/-- An empty line stays empty. -/
theorem filter_map_stripAnsi (ls : List Str) :
    ((ls.filter (!·.isEmpty)).map stripAnsi).filter (!·.isEmpty) =
      (ls.map stripAnsi).filter (!·.isEmpty) := by
  induction ls with
  | nil => rfl
  | cons line ls ih =>
    cases line with
    | nil => exact ih
    | cons c s =>
      rw [List.filter_cons_of_pos (by rfl), List.map_cons, List.map_cons, List.filter_cons,
        List.filter_cons, ih]

theorem said_eq_pieces (out : Str) :
    said out = ((out.splitOnP isLineBreak).map stripAnsi).filter (!·.isEmpty) := by
  rw [said, ← filter_map_stripAnsi, (sameLines_splitlines out).filter_eq, filter_map_stripAnsi]

theorem said_bst (stdout : Str) : said (bst stdout) = said stdout := by
  rw [said_eq_pieces, said_eq_pieces, bst, ← filter_map_stripAnsi,
    (sameLines_universalNewlines stdout).filter_eq, filter_map_stripAnsi]

theorem said_of_decorates {plain out : Str} (h : Decorates plain out) (hplain : '\x1b' ∉ plain) :
    said out = said plain := by
  rw [said_eq_pieces, said_eq_pieces, map_stripAnsi_pieces h hplain,
    map_stripAnsi_pieces (decorates_refl plain) hplain]

/-- **Colour does not change the file map.** Neither reader tells a decorated output from the
plain one, before or after the newlines of the pipe are read. -/
theorem colour_ignored {plain out : Str} (hplain : '\x1b' ∉ plain) (h : Decorates plain out) :
    (listElements out = listElements plain ∧ listAllContents out = listAllContents plain) ∧
    listElements (bst out) = listElements (bst plain) ∧
    listAllContents (bst out) = listAllContents (bst plain) := by
  have hsaid := said_of_decorates h hplain
  refine ⟨⟨?_, ?_⟩, ?_, ?_⟩
  · rw [listElements_eq, listElements_eq, hsaid]
  · rw [listAllContents_eq, listAllContents_eq, hsaid]
  · rw [listElements_eq, listElements_eq, said_bst, said_bst, hsaid]
  · rw [listAllContents_eq, listAllContents_eq, said_bst, said_bst, hsaid]

theorem escape_reset : Escape "\x1b[0m".toList :=
  ⟨['0'], 'm', List.forall_mem_singleton.mpr (by decide), by decide, rfl⟩

/-- Sequences side by side, inside a line break and in front of a tab. -/
theorem colour_ignored_listing :
    listAllContents "\x1b[0m\x1b[0ma:\r\x1b[0m\n\x1b[0m\tm reg 1 p".toList =
      listAllContents "a:\r\n\tm reg 1 p".toList := by
  have hDecorates : Decorates "a:\r\n\tm reg 1 p".toList
      "\x1b[0m\x1b[0ma:\r\x1b[0m\n\x1b[0m\tm reg 1 p".toList :=
    .escape escape_reset (.escape escape_reset (.char 'a' (.char ':' (.char '\r'
      (.escape escape_reset (.char '\n' (.escape escape_reset (decorates_refl _))))))))
  exact (colour_ignored (by decide) hDecorates).1.2

end XfceLinux.Filemap
