import XfceLinux.Fakecap.Claims
import XfceLinux.Fakecap.Restore

/-!
# Served and restored attributes

The manifest of `gen-filemap.py` under both its readers: `getxattr` of the library answers
with the claim of a path that its search probes first, `fakecap-restore` leaves the last
one. Both are read off the contents that the manifest was made of.
-/

namespace XfceLinux.Fakecap

open Lib Lib.Text Lib.Search Filemap

/-! ## Room -/

theorem length_stored_manifest (contents : Contents) :
    (manifestLoad (manifestFile contents)).stored.length ≤
      (manifestLoad (manifestFile contents)).cap := by
  have hzero : ∀ b ∈ Utf8.encode manifestHeader ++ [newline], decide (b ≠ 0) = true := by
    decide +kernel
  have hline : newline ∉ Utf8.encode manifestHeader := by decide +kernel
  have hnone : entryOf (Utf8.encode manifestHeader) = none := by decide +kernel
  obtain ⟨text, htext⟩ : ∃ text, manifestFile contents =
      Utf8.encode manifestHeader ++ newline :: text := by
    refine ⟨Lines.unlines newline ((bodyLines contents).map Utf8.encode), ?_⟩
    rw [manifestFile_eq, List.map_cons, Lines.unlines, List.flatMap_cons, List.append_assoc]
    rfl
  have hstring : cString (manifestFile contents) =
      Utf8.encode manifestHeader ++ newline :: cString text := by
    rw [htext, List.append_cons, cString, List.takeWhile_append_of_pos hzero, List.append_assoc]
    rfl
  simp only [manifestLoad, hstring]
  exact length_entries_le hline hnone _

/-! ## Clean contents -/

/-- Absolute paths and elements without control characters, on lines that fit, and no
element lists a file twice. -/
structure Clean (contents : Contents) : Prop where
  path : ∀ claim ∈ listed contents, claim.1.head? = some '/' ∧ Printable claim.1
  element : ∀ claim ∈ listed contents, Printable claim.2
  short : ∀ claim ∈ listed contents, (Utf8.encode (lineOf claim)).length ≤ 8190
  once : (listed contents).Nodup

theorem Clean.legible {contents : Contents} (hclean : Clean contents) : Legible contents :=
  ⟨hclean.path, hclean.element, hclean.short⟩

/-- The number of claims of a path. -/
def claimants (contents : Contents) (p : Bytes) : Nat :=
  (listed contents).countP fun claim => Utf8.encode claim.1 = p

/-- The number of claims of smaller paths. -/
def smaller (contents : Contents) (p : Bytes) : Nat :=
  (listed contents).countP fun claim => strcmp (Utf8.encode claim.1) p = .lt

/-- From a clean manifest both readers extract one entry for each claim. -/
theorem Clean.perm_entries {contents : Contents} (hclean : Clean contents) :
    restoreEntries (manifestFile contents) = entries (cString (manifestFile contents)) ∧
      (entries (cString (manifestFile contents))).Perm ((listed contents).map claimEntry) := by
  have hsame := hclean.legible.restoreEntries_eq_entries
  refine ⟨hsame, ?_⟩
  rw [← hsame, hclean.legible.restoreEntries]
  exact (perm_sortOn lineOf (listed contents)).map claimEntry

/-! ## Counting claims -/

section Counting

variable {contents : Contents} {es : List Entry}
  (hperm : es.Perm ((listed contents).map claimEntry)) (p : Bytes)

include hperm

theorem before_eq_smaller : before p es = smaller contents p := by
  rw [before, hperm.countP_eq, List.countP_map]
  rfl

theorem length_claims_eq : (claims p es).length = claimants contents p := by
  rw [claims, ← List.countP_eq_length_filter, hperm.countP_eq, List.countP_map]
  rfl

/-- The claims of one path come from different elements. -/
theorem nodup_claims (honce : (listed contents).Nodup) :
    ((claims p es).map (·.component)).Nodup := by
  have hclaims := (hperm.filter fun e => e.path = p).map (·.component)
  rw [claims, hclaims.nodup_iff, List.filter_map, List.map_map]
  refine List.Nodup.map_on ?_ (honce.filter _)
  intro x hx y hy hxy
  have hx := (List.mem_filter.mp hx).2
  have hy := (List.mem_filter.mp hy).2
  simp only [Function.comp_apply, decide_eq_true_eq] at hx hy hxy
  have hpath : x.1 = y.1 := Utf8.encode_inj (hx.trans hy.symm)
  have helement : x.2 = y.2 := Utf8.encode_inj hxy
  exact Prod.ext hpath helement

end Counting

/-! ## Served and restored -/

variable {ι : Type*} [DecidableEq ι]

/-- **Served and restored.** From the manifest of any contents, `getxattr` serves for a path
what `fakecap-restore` leaves on its file if and only if the entry of the path that the
search probes first, in the order of the text, has the values of the last line that leads
to the file. For clean contents and a file with one name and no attributes of its own, this
is so when the first probe in the block of the `k` claims falls on the last one. -/
theorem served_eq_restored_iff (contents : Contents) (fs : Rootfs ι)
    (hset : ∀ f a, fs.refuses f a = none) (rootfs pfx path : Bytes) (f : ι)
    (hf : fs.find (rootfs ++ stripPrefix pfx path) = .ok f) (attrs : Attrs ι) :
    (manifestLoad (manifestFile contents)).stored.length ≤
        (manifestLoad (manifestFile contents)).cap ∧
      ((∀ a, Serves (manifestLoad (manifestFile contents)) pfx path a
          (fs.lgetxattr (restore fs rootfs (manifestFile contents) attrs).attrs
            (rootfs ++ stripPrefix pfx path) a)) ↔
        ∀ a, (probed (stripPrefix pfx path)
            (entries (cString (manifestFile contents)))).map (·.value a) =
          (((restoreEntries (manifestFile contents)).filter
            (Entry.leadsTo fs rootfs f)).getLast?.map (·.value a)).or (attrs f a)) ∧
      (Clean contents → (∀ a, attrs f a = none) →
        (∀ claim ∈ listed contents, (claimEntry claim).leadsTo fs rootfs f =
          decide (Utf8.encode claim.1 = stripPrefix pfx path)) →
        ((∀ a, Serves (manifestLoad (manifestFile contents)) pfx path a
            (fs.lgetxattr (restore fs rootfs (manifestFile contents) attrs).attrs
              (rootfs ++ stripPrefix pfx path) a)) ↔
          claimants contents (stripPrefix pfx path) = 0 ∨
            firstProbe (smaller contents (stripPrefix pfx path))
                (claimants contents (stripPrefix pfx path)) (listed contents).length =
              some (claimants contents (stripPrefix pfx path) - 1))) := by
  have hiff : (∀ a, Serves (manifestLoad (manifestFile contents)) pfx path a
      (fs.lgetxattr (restore fs rootfs (manifestFile contents) attrs).attrs
        (rootfs ++ stripPrefix pfx path) a)) ↔
      ∀ a, (probed (stripPrefix pfx path)
          (entries (cString (manifestFile contents)))).map (·.value a) =
        (((restoreEntries (manifestFile contents)).filter
          (Entry.leadsTo fs rootfs f)).getLast?.map (·.value a)).or (attrs f a) := by
    generalize manifestFile contents = file
    refine forall_congr' fun a => ?_
    rw [serves_iff, Rootfs.lgetxattr, hf]
    simp only [restore, foldl_restoreEntry_attrs hset]
    rfl
  refine ⟨length_stored_manifest contents, hiff, ?_⟩
  intro hclean hattrs halone
  obtain ⟨hsame, hperm⟩ := hclean.perm_entries
  rw [hiff, hsame]
  generalize stripPrefix pfx path = p at halone
  generalize entries (cString (manifestFile contents)) = es at hperm
  have hfilter : es.filter (Entry.leadsTo fs rootfs f) = claims p es := by
    refine List.filter_congr fun e he => ?_
    obtain ⟨claim, hclaim, rfl⟩ := List.mem_map.mp (hperm.mem_iff.mp he)
    exact halone claim hclaim
  have hlen : es.length = (listed contents).length := by
    rw [hperm.length_eq, List.length_map]
  simp only [hfilter, hattrs, Option.or_none]
  rw [← before_eq_smaller hperm, ← length_claims_eq hperm, ← hlen]
  by_cases hnil : claims p es = []
  · simp [probed, hnil]
  · rw [probed_last_iff hnil (nodup_claims hperm p hclean.once), List.length_eq_zero_iff]
    simp [hnil]

/-- A root directory with the file `/f` alone. -/
def oneFileRoot : Rootfs Unit where
  find p := if p = ascii "/r/f" then .ok () else .error .ENOENT
  refuses _ _ := none

theorem served_eq_restored_iff_two :
    Serves
      (manifestLoad (manifestFile (sharing ["a.bst".toList, "b.bst".toList] (by decide))))
      (ascii "/r") (ascii "/r/f") .component
      (oneFileRoot.lgetxattr (restore oneFileRoot (ascii "/r")
        (manifestFile (sharing ["a.bst".toList, "b.bst".toList] (by decide)))
        fun _ _ => none).attrs (ascii "/r/f") .component) := by
  refine (served_eq_restored_iff (sharing ["a.bst".toList, "b.bst".toList] (by decide))
    oneFileRoot (fun _ _ => rfl) (ascii "/r") (ascii "/r") (ascii "/r/f") () (by decide)
    fun _ _ => none).2.1.mpr ?_ .component
  intro a
  cases a <;> decide +kernel

/-- Of three elements with one file the library serves the second, and the tool leaves the
third. -/
theorem three_claims_differ :
    ¬ ∀ (contents : Contents) (fs : Rootfs Unit), (∀ f a, fs.refuses f a = none) →
      ∀ (rootfs pfx path : Bytes) (f : Unit), fs.find (rootfs ++ stripPrefix pfx path) = .ok f →
        ∀ a, Serves (manifestLoad (manifestFile contents)) pfx path a
          (fs.lgetxattr (restore fs rootfs (manifestFile contents)
            fun _ _ => none).attrs (rootfs ++ stripPrefix pfx path) a) := by
  intro h
  have hserves := h (sharing ["a.bst".toList, "b.bst".toList, "c.bst".toList] (by decide))
    oneFileRoot (fun _ _ => rfl) (ascii "/r") (ascii "/r") (ascii "/r/f") () (by decide) .component
  rw [serves_iff] at hserves
  revert hserves
  decide +kernel

end XfceLinux.Fakecap
