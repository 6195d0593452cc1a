import XfceLinux.Fakecap.Claims
import XfceLinux.Fakecap.Restore
import XfceLinux.Filemap.Main

/-!
# From the artifacts to the image

`gen-filemap.py` reads what `bst` prints and writes a manifest, and `fakecap-restore` sets its
attributes on the files of the image. A file carries in the end the element and the interval of
the claim with the greatest line among those that lead to it (`gen_filemap_tags`).
-/

namespace XfceLinux.Fakecap

open Lib Lib.Text Lib.Search Filemap

/-- Claims without control characters, on lines that fit. -/
structure LegibleListing (m : Listing) : Prop where
  path : ∀ claim ∈ m.claims, Printable claim.1
  element : ∀ claim ∈ m.claims, Printable claim.2
  short : ∀ claim ∈ m.claims, (Utf8.encode (lineOf claim)).length ≤ 8190

theorem head?_of_mem_claims {m : Listing} {claim : Str × Str} (h : claim ∈ m.claims) :
    claim.1.head? = some '/' := by
  obtain ⟨item, -, hclaim⟩ := List.mem_flatMap.mp h
  obtain ⟨path, hpath, rfl⟩ := List.mem_map.mp hclaim
  obtain ⟨e, -, hword⟩ := List.mem_filterMap.mp hpath
  unfold Filemap.Entry.word at hword
  split at hword
  · cases hword
  · obtain ⟨w, -, rfl⟩ := Option.map_eq_some_iff.mp hword
    rfl

theorem LegibleListing.contents {m : Listing} (h : LegibleListing m) (hplain : m.Plain)
    {stdout : Str} (hout : Decorates m.render stdout) : Legible (contentsOf (bst stdout)) where
  path claim hclaim :=
    have hmem := (mem_listed_contentsOf hplain hout claim).mp hclaim
    ⟨head?_of_mem_claims hmem, h.path claim hmem⟩
  element claim hclaim := h.element claim ((mem_listed_contentsOf hplain hout claim).mp hclaim)
  short claim hclaim := h.short claim ((mem_listed_contentsOf hplain hout claim).mp hclaim)

/-! ## The last line -/

theorem claimEntry_of_lineOf {contents : Contents} (hlegible : Legible contents)
    {claim other : Str × Str} (hclaim : claim ∈ listed contents) (hother : other ∈ listed contents)
    (h : lineOf other = lineOf claim) : claimEntry other = claimEntry claim := by
  have hentry := hlegible.entryOf_lineOf hother
  rw [h, hlegible.entryOf_lineOf hclaim] at hentry
  exact (Option.some.inj hentry).symm

section Restored

variable {ι : Type*} [DecidableEq ι] {contents : Contents} (hlegible : Legible contents)
  {fs : Rootfs ι} (hset : ∀ f a, fs.refuses f a = none) (rootfs : Bytes) (attrs : Attrs ι) {f : ι}

include hlegible hset

theorem restore_attrs (f : ι) (a : Attr) :
    (restore fs rootfs (manifestFile contents) attrs).attrs f a =
      (((sortOn lineOf (listed contents)).filter fun claim =>
        (claimEntry claim).leadsTo fs rootfs f).getLast?.map fun claim =>
          (claimEntry claim).value a).or (attrs f a) := by
  rw [restore, hlegible.restoreEntries, foldl_restoreEntry_attrs hset, List.filter_map,
    List.getLast?_map, Option.map_map]
  rfl

/-- Where nothing leads to, nothing is set. -/
theorem restore_attrs_of_none
    (h : ∀ claim ∈ listed contents, (claimEntry claim).leadsTo fs rootfs f = false) (a : Attr) :
    (restore fs rootfs (manifestFile contents) attrs).attrs f a = attrs f a := by
  have hnil : ((sortOn lineOf (listed contents)).filter fun claim =>
      (claimEntry claim).leadsTo fs rootfs f) = [] := by
    refine List.filter_eq_nil_iff.mpr fun claim hclaim => ?_
    rw [h claim ((perm_sortOn lineOf _).mem_iff.mp hclaim)]
    exact Bool.false_ne_true
  rw [restore_attrs hlegible hset, hnil]
  rfl

/-- The claim with the greatest line decides. -/
theorem restore_attrs_of_greatest {claim : Str × Str} (hclaim : claim ∈ listed contents)
    (hleads : (claimEntry claim).leadsTo fs rootfs f)
    (hgreatest : ∀ other ∈ listed contents, (claimEntry other).leadsTo fs rootfs f →
      (compare (lineOf other) (lineOf claim)).isLE) (a : Attr) :
    (restore fs rootfs (manifestFile contents) attrs).attrs f a =
      some ((claimEntry claim).value a) := by
  rw [restore_attrs hlegible hset]
  cases hlast : ((sortOn lineOf (listed contents)).filter fun claim =>
      (claimEntry claim).leadsTo fs rootfs f).getLast? with
  | none =>
    have hsorted := (perm_sortOn lineOf (listed contents)).mem_iff.mpr hclaim
    rw [List.getLast?_eq_none_iff, List.filter_eq_nil_iff] at hlast
    exact absurd hleads (hlast claim hsorted)
  | some last =>
    obtain ⟨hsorted, hpass⟩ := List.mem_filter.mp (List.mem_of_getLast? hlast)
    have hin := (perm_sortOn lineOf (listed contents)).mem_iff.mp hsorted
    have hle := isLE_of_getLast? hclaim hleads hlast
    have hline : lineOf last = lineOf claim :=
      Std.LawfulEqOrd.eq_of_compare (Std.OrientedCmp.isLE_antisymm (hgreatest last hin hpass) hle)
    rw [Option.map_some, claimEntry_of_lineOf hlegible hclaim hin hline]
    rfl

end Restored

/-- **From the artifacts to the image.** When `bst` shows the elements and lists what they
contain, coloured or not, `main` writes a manifest. A file of the image that no claim of the
listing leads to keeps its attributes under `fakecap-restore`, and any other gets the element of
the claim with the greatest line and the interval guessed for that element. -/
theorem gen_filemap_tags {ι : Type*} [DecidableEq ι] {just : Just} {target : Str} {shown : List Str}
    {m : Listing} {out₁ out₂ : Str} (hshow : just ("bst".toList :: showArgs target) = (0, out₁))
    (hshown : ∀ l ∈ shown, ∀ c ∈ l, isLineBreak c = false ∧ c ≠ '\x1b')
    (hout₁ : Decorates (Lines.unlines '\n' shown) out₁)
    (hlist : just ("bst".toList :: listArgs (named shown)) = (0, out₂)) (hm : m.Plain)
    (hout₂ : Decorates m.render out₂) (hlegible : LegibleListing m) {fs : Rootfs ι}
    (hset : ∀ f a, fs.refuses f a = none) (rootfs : Bytes) (attrs : Attrs ι) :
    ∃ filemap manifest, main just target false = .written filemap manifest ∧ ∀ f,
      ((∀ claim ∈ m.claims, (claimEntry claim).leadsTo fs rootfs f = false) →
        ∀ a, (restore fs rootfs manifest attrs).attrs f a = attrs f a) ∧
      ∀ claim ∈ m.claims, (claimEntry claim).leadsTo fs rootfs f →
        (∀ other ∈ m.claims, (claimEntry other).leadsTo fs rootfs f →
          (compare (lineOf other) (lineOf claim)).isLE) →
        (restore fs rootfs manifest attrs).attrs f .component = some (Utf8.encode claim.2) ∧
        (restore fs rootfs manifest attrs).attrs f .interval =
          some (Utf8.encode (guessInterval claim.2)) := by
  have hmain : main just target false =
      .written (filemapFile (contentsOf (bst out₂))) (manifestFile (contentsOf (bst out₂))) := by
    have hlist' : runBst just (listArgs (listElements (bst out₁))) = some (bst out₂) := by
      rw [listElements_shown hshown hout₁]
      exact runBst_of_zero hlist
    simp [main, runBst_of_zero hshow, hlist']
  have hclaims := mem_listed_contentsOf hm hout₂
  have hcontents := hlegible.contents hm hout₂
  refine ⟨_, _, hmain, fun f => ⟨fun h a => ?_, fun claim hclaim hleads hgreatest => ?_⟩⟩
  · exact restore_attrs_of_none hcontents hset rootfs attrs
      (fun claim hclaim => h claim ((hclaims claim).mp hclaim)) a
  · have hdecides := restore_attrs_of_greatest hcontents hset rootfs attrs
      ((hclaims claim).mpr hclaim) hleads
      fun other hother => hgreatest other ((hclaims other).mp hother)
    exact ⟨hdecides .component, hdecides .interval⟩

theorem linked_plain : linked.Plain := by
  have hAll : linked.items.all fun item => item.2.all fun e =>
      (e.path ++ e.target).all fun c => !isLineBreak c && c != '\x1b' := by decide
  intro item hitem e he c hc
  have hentry := List.all_eq_true.mp (List.all_eq_true.mp hAll item hitem) e he
  simpa using List.all_eq_true.mp hentry c hc

theorem linked_claims : linked.claims =
    [("/usr/bin/a".toList, "a.bst".toList), ("/usr/lib64".toList, "a.bst".toList)] := by
  decide +kernel

/-- A `bst` that shows `a.bst` and lists the element. -/
def showsElement : Just := fun args =>
  if args = "bst".toList :: showArgs "a.bst".toList then (0, "a.bst\n".toList)
  else (0, linked.render)

/-- A root with the executable and the link. -/
def linkRoot : Rootfs Bool where
  find path :=
    if path = Utf8.encode "/r/usr/bin/a".toList then .ok true
    else if path = Utf8.encode "/r/usr/lib64".toList then .ok false
    else .error .ENOENT
  refuses _ _ := none

theorem shows_plain : ∀ l ∈ ["a.bst".toList], ∀ c ∈ l, isLineBreak c = false ∧ c ≠ '\x1b' := by
  simp [isLineBreak]

theorem gen_filemap_tags_linked : ∃ filemap manifest,
    main showsElement "a.bst".toList false = .written filemap manifest ∧
      (restore linkRoot (Utf8.encode "/r".toList) manifest fun _ _ => none).attrs false .component =
        some (Utf8.encode "a.bst".toList) := by
  have hlegible : LegibleListing linked := by
    constructor <;> rw [linked_claims] <;> decide +kernel
  have hset : ∀ f a, linkRoot.refuses f a = none := fun _ _ => rfl
  obtain ⟨filemap, manifest, hmain, htags⟩ :=
    @gen_filemap_tags _ _ showsElement "a.bst".toList _ _ _ _ rfl shows_plain (decorates_refl _)
      rfl linked_plain (decorates_refl _) hlegible _ hset (Utf8.encode "/r".toList)
      fun _ _ => none
  have hleads := (htags false).2 ("/usr/lib64".toList, "a.bst".toList)
  rw [linked_claims] at hleads
  refine ⟨filemap, manifest, hmain, (hleads (by decide) (by decide +kernel) ?_).1⟩
  decide +kernel

end XfceLinux.Fakecap
