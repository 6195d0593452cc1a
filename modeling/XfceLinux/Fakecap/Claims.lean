import XfceLinux.Fakecap.Readers
import XfceLinux.Filemap.Manifest

/-!
# The claims in the manifest

The manifest of legible contents has one line for each claim of a file by an element, and both
readers extract the entry of the claim from it. The entries come in the order of the lines
(`Legible.restoreEntries`).
-/

namespace XfceLinux.Fakecap

open Lib Lib.Text Lib.Search Filemap

/-! ## Legible contents -/

/-- No control characters. -/
def Printable (s : Str) : Prop := ∀ c ∈ s, 0x20 ≤ c.toNat

instance (s : Str) : Decidable (Printable s) :=
  List.decidableBAll (fun c : Char => 0x20 ≤ c.toNat) s

/-- Absolute paths and elements without control characters, on lines that fit. -/
structure Legible (contents : Contents) : Prop where
  path : ∀ claim ∈ listed contents, claim.1.head? = some '/' ∧ Printable claim.1
  element : ∀ claim ∈ listed contents, Printable claim.2
  short : ∀ claim ∈ listed contents, (Utf8.encode (lineOf claim)).length ≤ 8190

/-- The entry that a claim comes to. -/
def claimEntry (claim : Str × Str) : Entry where
  path := Utf8.encode claim.1
  component := Utf8.encode claim.2
  interval := Utf8.encode (guessInterval claim.2)

/-- Elements that all contain the file `/f`. -/
def sharing (elements : List Str) (h : elements.Nodup) : Contents where
  items := elements.map fun element => (element, ["/f".toList])
  keys_nodup := by simpa [Function.comp_def] using h

theorem printable_guessInterval (element : Str) : Printable (guessInterval element) := by
  have hhints : ∀ hint ∈ intervalHints, Printable hint.2 := by decide
  unfold guessInterval
  split
  · rename_i hint hfound
    exact hhints hint (List.mem_of_find?_eq_some hfound)
  · have hdefault : Printable defaultInterval := by decide
    exact hdefault

theorem encode_lineOf (claim : Str × Str) :
    Utf8.encode (lineOf claim) =
      Utf8.encode claim.1 ++ tab :: (Utf8.encode claim.2 ++
        tab :: Utf8.encode (guessInterval claim.2)) := by
  rw [lineOf, List.append_assoc, Utf8.encode_append, List.cons_append, Utf8.encode_cons,
    Utf8.encode_append, Utf8.encode_cons]
  rfl

theorem le_of_mem_encode {s : Str} (hs : Printable s) {b : UInt8} (hb : b ∈ Utf8.encode s) :
    0x20 ≤ b.toNat := by
  by_contra hlt
  obtain ⟨c, hc, hcb⟩ := Utf8.mem_encode hb (by omega)
  have := hs c hc
  omega

section Legible

variable {contents : Contents} (hlegible : Legible contents) {claim : Str × Str}
  (hclaim : claim ∈ listed contents)

include hlegible hclaim

theorem Legible.line {b : UInt8} (hb : b ∈ Utf8.encode (lineOf claim)) :
    b = tab ∨ 0x20 ≤ b.toNat := by
  rw [encode_lineOf] at hb
  rcases List.mem_append.mp hb with hb | hb
  · exact .inr (le_of_mem_encode (hlegible.path claim hclaim).2 hb)
  rcases List.mem_cons.mp hb with hb | hb
  · exact .inl hb
  rcases List.mem_append.mp hb with hb | hb
  · exact .inr (le_of_mem_encode (hlegible.element claim hclaim) hb)
  rcases List.mem_cons.mp hb with hb | hb
  · exact .inl hb
  · exact .inr (le_of_mem_encode (printable_guessInterval _) hb)

theorem Legible.entryOf_lineOf :
    entryOf (Utf8.encode (lineOf claim)) = some (claimEntry claim) := by
  have htab : ∀ s, Printable s → tab ∉ Utf8.encode s := by
    intro s hs hmem
    have := le_of_mem_encode hs hmem
    simp [tab] at this
  obtain ⟨hhead, hpath⟩ := hlegible.path claim hclaim
  have hfirst : (Utf8.encode (lineOf claim)).head? = some slash := by
    rw [encode_lineOf]
    cases hc : claim.1 with
    | nil => simp [hc] at hhead
    | cons c s =>
      obtain rfl : c = '/' := by simpa [hc] using hhead
      rfl
  have hskip : ¬ ((Utf8.encode (lineOf claim)).head? = none ∨
      (Utf8.encode (lineOf claim)).head? = some hash) := by
    rw [hfirst]
    decide
  rw [entryOf, if_neg hskip, encode_lineOf, strchr_append (htab _ hpath)]
  dsimp only
  rw [strchr_append (htab _ (hlegible.element claim hclaim))]
  rfl

end Legible

/-! ## The entries of the manifest -/

theorem mem_bodyLines {contents : Contents} {line : Str} (h : line ∈ bodyLines contents) :
    line = [] ∨ ∃ claim ∈ listed contents, line = lineOf claim := by
  unfold bodyLines at h
  split at h
  · exact .inl (List.mem_singleton.mp h)
  · have hperm := (perm_sortOn id _).trans (perm_manifestLines contents)
    obtain ⟨claim, hclaim, rfl⟩ := List.mem_map.mp (hperm.mem_iff.mp h)
    exact .inr ⟨claim, hclaim, rfl⟩

/-- Every line of a legible manifest suits both readers. -/
theorem Legible.lines {contents : Contents} (hlegible : Legible contents) :
    ∀ l ∈ (manifestHeader :: bodyLines contents).map Utf8.encode,
      newline ∉ l ∧ 0 ∉ l ∧ l.length ≤ 8190 := by
  intro l hl
  obtain ⟨line, hline, rfl⟩ := List.mem_map.mp hl
  rcases List.mem_cons.mp hline with rfl | hline
  · decide +kernel
  rcases mem_bodyLines hline with rfl | ⟨claim, hclaim, rfl⟩
  · decide
  · refine ⟨fun hb => ?_, fun hb => ?_, hlegible.short claim hclaim⟩
    · have := hlegible.line hclaim hb
      revert this
      decide
    · have := hlegible.line hclaim hb
      revert this
      decide

theorem Legible.zero_notMem {contents : Contents} (hlegible : Legible contents) :
    0 ∉ manifestFile contents := by
  rw [manifestFile_eq]
  intro hmem
  obtain ⟨l, hl, hb⟩ := List.mem_flatMap.mp hmem
  rcases List.mem_append.mp hb with hb | hb
  · exact (hlegible.lines l hl).2.1 hb
  · revert hb
    decide

/-- Both readers extract the same entries from a legible manifest. -/
theorem Legible.restoreEntries_eq_entries {contents : Contents} (hlegible : Legible contents) :
    restoreEntries (manifestFile contents) = entries (cString (manifestFile contents)) := by
  have hlines := hlegible.lines
  rw [cString_of_notMem hlegible.zero_notMem, manifestFile_eq]
  exact restoreEntries_unlines (fun l hl => (hlines l hl).1) (fun l hl => (hlines l hl).2.1)
    fun l hl => (hlines l hl).2.2

theorem sorted_manifestLines (contents : Contents) :
    sortOn id (manifestLines (filemap contents)) =
      (sortOn lineOf (listed contents)).map lineOf :=
  sortOn_id_of_perm (perm_manifestLines contents)

/-- **The entries.** From a legible manifest both readers extract one entry for each claim, in
the order of the lines. -/
theorem Legible.restoreEntries {contents : Contents} (hlegible : Legible contents) :
    restoreEntries (manifestFile contents) =
      (sortOn lineOf (listed contents)).map claimEntry := by
  have hlines := hlegible.lines
  have hsorted : (bodyLines contents).filterMap (fun line => entryOf (Utf8.encode line)) =
      (sortOn id (manifestLines (filemap contents))).filterMap
        fun line => entryOf (Utf8.encode line) := by
    unfold bodyLines
    split
    · rename_i hnil
      rw [hnil]
      rfl
    · rfl
  have hheader : entryOf (Utf8.encode manifestHeader) = none := by decide +kernel
  rw [hlegible.restoreEntries_eq_entries, cString_of_notMem hlegible.zero_notMem,
    manifestFile_eq]
  change entries (Lines.unlines newline _) = _
  rw [entries_unlines fun l hl => (hlines l hl).1, List.filterMap_map,
    List.filterMap_cons_none (by simpa using hheader)]
  refine hsorted.trans ?_
  rw [sorted_manifestLines, List.filterMap_map, ← List.filterMap_eq_map]
  refine List.filterMap_congr fun claim hclaim => ?_
  exact hlegible.entryOf_lineOf ((perm_sortOn lineOf (listed contents)).mem_iff.mp hclaim)

end XfceLinux.Fakecap
