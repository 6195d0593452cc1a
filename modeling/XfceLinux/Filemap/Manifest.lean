import XfceLinux.Lib.Dict
import XfceLinux.Lib.Json
import XfceLinux.Lib.Lines
import XfceLinux.Lib.Search
import XfceLinux.Lib.Utf8

/-!
# The file map and the manifest of `gen-filemap.py`

`main` turns the contents of the artifacts, a dictionary from elements to absolute paths,
into the components of `filemap.json` and the lines of `fakecap-manifest.tsv`.
-/

namespace XfceLinux.Filemap

open Lib Lib.Text Lib.Search

/-- The dictionary that `list_all_contents` returns. -/
structure Contents where
  items : List (Str × List Str)
  keys_nodup : (items.map (·.1)).Nodup

/-! ## Components -/

def intervalHints : List (Str × Str) :=
  [("xfce-linux/".toList, "weekly".toList),
    ("gnome/".toList, "monthly".toList),
    ("freedesktop-sdk".toList, "monthly".toList)]

def defaultInterval : Str := "monthly".toList

def guessInterval (element : Str) : Str :=
  match intervalHints.find? fun hint => contains hint.1 element with
  | some hint => hint.2
  | none => defaultInterval

def skipPrefixes : List Str := ["oci/layers/".toList]

structure Component where
  interval : Str
  files : List Str

/-- One turn of the loop that fills `filemap`. -/
def addComponent (filemap : List (Str × Component)) (item : Str × List Str) :
    List (Str × Component) :=
  let (element, files) := item
  if files.isEmpty then filemap
  else if skipPrefixes.any (·.isPrefixOf element) then filemap
  else
    Dict.set filemap element { interval := guessInterval element, files := sortOn id files }

def filemap (contents : Contents) : List (Str × Component) :=
  (sortOn (·.1) contents.items).foldl addComponent []

/-! ## The file map -/

def Component.value (c : Component) : Json.Value :=
  .obj [("interval".toList, .str c.interval), ("files".toList, .arr (c.files.map .str))]

/-- What `main` writes to `filemap.json`. -/
def filemapFile (contents : Contents) : Str :=
  Json.dumps 0 (.obj ((filemap contents).map fun e => (e.1, e.2.value))) ++ ['\n']

/-! ## The manifest -/

def manifestLines (filemap : List (Str × Component)) : List Str :=
  (sortOn (·.1) filemap).flatMap fun (element, data) =>
    data.files.map fun fpath => fpath ++ '\t' :: element ++ '\t' :: data.interval

def manifestHeader : Str := "# fakecap component manifest: path\tcomponent\tinterval".toList

def manifest (contents : Contents) : Str :=
  manifestHeader ++ '\n' ::
    (['\n'].intercalate (sortOn id (manifestLines (filemap contents))) ++ ['\n'])

/-- What `main` writes to `fakecap-manifest.tsv`. -/
def manifestFile (contents : Contents) : Bytes := Utf8.encode (manifest contents)

/-! ## The claims of the elements -/

/-- The files with the elements that claim them. -/
def listed (contents : Contents) : List (Str × Str) :=
  (contents.items.filter fun item => !skipPrefixes.any (·.isPrefixOf item.1)).flatMap
    fun item => item.2.map (·, item.1)

/-- The line of the manifest for a claim. -/
def lineOf (claim : Str × Str) : Str :=
  claim.1 ++ '\t' :: claim.2 ++ '\t' :: guessInterval claim.2

/-- What `addComponent` adds. -/
def componentOf (item : Str × List Str) : Option (Str × Component) :=
  if item.2.isEmpty ∨ skipPrefixes.any (·.isPrefixOf item.1) then none
  else some (item.1, { interval := guessInterval item.1, files := sortOn id item.2 })

theorem foldl_addComponent {items : List (Str × List Str)} {acc : List (Str × Component)}
    (h : (acc.map (·.1) ++ items.map (·.1)).Nodup) :
    items.foldl addComponent acc = acc ++ items.filterMap componentOf := by
  induction items generalizing acc with
  | nil => simp
  | cons item items ih =>
    obtain ⟨element, files⟩ := item
    have hskip : (acc.map (·.1) ++ items.map (·.1)).Nodup :=
      h.sublist (List.Sublist.append_left (List.sublist_cons_self _ _) _)
    rw [List.foldl_cons]
    by_cases hempty : files.isEmpty
    · rw [addComponent, if_pos hempty, List.filterMap_cons_none (by simp [componentOf, hempty])]
      exact ih hskip
    by_cases hskipped : skipPrefixes.any (·.isPrefixOf element)
    · rw [addComponent, if_neg hempty, if_pos hskipped,
        List.filterMap_cons_none (by simp [componentOf, hskipped])]
      exact ih hskip
    · have hnew : element ∉ acc.map (·.1) := fun hmem =>
        (List.nodup_append.mp h).2.2 _ hmem _ List.mem_cons_self rfl
      have hsome : componentOf (element, files) =
          some (element, { interval := guessInterval element, files := sortOn id files }) := by
        simp [componentOf, hempty, hskipped]
      rw [addComponent, if_neg hempty, if_neg hskipped, Dict.set_of_notMem hnew, ih,
        List.filterMap_cons_some hsome, List.append_assoc]
      · rfl
      · simpa using h

theorem filemap_eq (contents : Contents) :
    filemap contents = (sortOn (·.1) contents.items).filterMap componentOf := by
  have hperm := perm_sortOn (·.1) contents.items
  have hnodup : ((sortOn (·.1) contents.items).map (·.1)).Nodup :=
    (hperm.map (·.1)).nodup_iff.mpr contents.keys_nodup
  rw [filemap, foldl_addComponent (by simpa using hnodup), List.nil_append]

theorem perm_filemap (contents : Contents) :
    (filemap contents).Perm (contents.items.filterMap componentOf) := by
  rw [filemap_eq]
  exact (perm_sortOn (·.1) contents.items).filterMap componentOf

theorem eq_of_componentOf {item : Str × List Str} {e : Str × Component}
    (h : componentOf item = some e) :
    e = (item.1, { interval := guessInterval item.1, files := sortOn id item.2 }) := by
  unfold componentOf at h
  split at h
  · cases h
  · exact (Option.some.inj h).symm

/-- Each component has the interval of its element. -/
theorem interval_of_mem_filemap {contents : Contents} {e : Str × Component}
    (h : e ∈ filemap contents) : e.2.interval = guessInterval e.1 := by
  rw [filemap_eq] at h
  obtain ⟨item, -, hitem⟩ := List.mem_filterMap.mp h
  rw [eq_of_componentOf hitem]

/-- The components stand in the order of their elements. -/
theorem pairwise_filemap (contents : Contents) :
    (filemap contents).Pairwise fun x y => (compare x.1 y.1).isLE := by
  rw [filemap_eq]
  refine List.Pairwise.filterMap componentOf ?_ (pairwise_sortOn (·.1) contents.items)
  intro x y hxy e he f hf
  rw [eq_of_componentOf he, eq_of_componentOf hf]
  exact hxy

theorem nodup_filemap (contents : Contents) : ((filemap contents).map (·.1)).Nodup := by
  have hkeys : (((sortOn (·.1) contents.items).filterMap componentOf).map (·.1)).Sublist
      ((sortOn (·.1) contents.items).map (·.1)) := by
    generalize sortOn (·.1) contents.items = items
    induction items with
    | nil => exact .slnil
    | cons item items ih =>
      cases hitem : componentOf item with
      | none =>
        rw [List.filterMap_cons_none hitem, List.map_cons]
        exact ih.cons _
      | some e =>
        rw [List.filterMap_cons_some hitem, List.map_cons, List.map_cons, eq_of_componentOf hitem]
        exact ih.cons_cons _
  rw [filemap_eq]
  refine List.Nodup.sublist hkeys ?_
  exact ((perm_sortOn (·.1) contents.items).map (·.1)).nodup_iff.mpr contents.keys_nodup

/-- The claims in the order in which the file map lists them. -/
def visited (contents : Contents) : List (Str × Str) :=
  (filemap contents).flatMap fun e => e.2.files.map (·, e.1)

/-- **The claims.** The file map lists the files of the elements that are not skipped. -/
theorem perm_visited (contents : Contents) : (visited contents).Perm (listed contents) := by
  refine ((perm_filemap contents).flatMap_right _).trans ?_
  rw [listed]
  generalize contents.items = items
  induction items with
  | nil => exact .nil
  | cons item items ih =>
    obtain ⟨element, files⟩ := item
    by_cases hskipped : skipPrefixes.any (·.isPrefixOf element)
    · rw [List.filterMap_cons_none (by simp [componentOf, hskipped]),
        List.filter_cons_of_neg (by simp [hskipped])]
      exact ih
    rw [List.filter_cons_of_pos (by simp [hskipped]), List.flatMap_cons]
    by_cases hempty : files.isEmpty
    · rw [List.filterMap_cons_none (by simp [componentOf, hempty])]
      simpa [List.isEmpty_iff.mp hempty] using ih
    · have hsome : componentOf (element, files) =
          some (element, { interval := guessInterval element, files := sortOn id files }) := by
        simp [componentOf, hempty, hskipped]
      rw [List.filterMap_cons_some hsome, List.flatMap_cons]
      exact List.Perm.append ((perm_sortOn id files).map _) ih

/-- Claims of smaller elements are listed first. -/
theorem pairwise_visited (contents : Contents) :
    (visited contents).Pairwise fun x y => (compare x.2 y.2).isLE := by
  rw [visited, List.pairwise_flatMap]
  refine ⟨fun e _ => ?_, (pairwise_filemap contents).imp ?_⟩
  · refine List.pairwise_map.mpr (List.pairwise_of_forall fun x y => ?_)
    show (compare e.1 e.1).isLE
    rw [Std.ReflOrd.compare_self]
    rfl
  · intro e f hef x hx y hy
    obtain ⟨-, -, rfl⟩ := List.mem_map.mp hx
    obtain ⟨-, -, rfl⟩ := List.mem_map.mp hy
    exact hef

/-- **The lines.** The lines of the manifest are those of the claims. -/
theorem perm_manifestLines (contents : Contents) :
    (manifestLines (filemap contents)).Perm ((listed contents).map lineOf) := by
  have hlines : (filemap contents).flatMap (fun (element, data) =>
      data.files.map fun fpath => fpath ++ '\t' :: element ++ '\t' :: data.interval) =
        (visited contents).map lineOf := by
    rw [visited, List.map_flatMap]
    refine List.flatMap_congr fun e he => ?_
    obtain ⟨element, data⟩ := e
    have hinterval : data.interval = guessInterval element := interval_of_mem_filemap he
    simp only [hinterval, List.map_map]
    rfl
  refine ((perm_sortOn (·.1) (filemap contents)).flatMap_right _).trans ?_
  rw [hlines]
  exact (perm_visited contents).map lineOf

/-! ## The text -/

/-- The lines behind the header; without claims there is one empty line. -/
def bodyLines (contents : Contents) : List Str :=
  if sortOn id (manifestLines (filemap contents)) = [] then [[]]
  else sortOn id (manifestLines (filemap contents))

theorem manifest_eq (contents : Contents) :
    manifest contents = Lines.unlines '\n' (manifestHeader :: bodyLines contents) := by
  have hbody : ['\n'].intercalate (sortOn id (manifestLines (filemap contents))) ++ ['\n'] =
      Lines.unlines '\n' (bodyLines contents) := by
    unfold bodyLines
    generalize sortOn id (manifestLines (filemap contents)) = lines
    induction lines with
    | nil => rfl
    | cons line lines ih =>
      rw [if_neg (by simp)]
      cases lines with
      | nil => simp [Lines.unlines]
      | cons next lines =>
        rw [if_neg (by simp)] at ih
        rw [List.intercalate_cons_of_ne_nil (by simp), List.append_assoc, List.append_assoc, ih]
        simp [Lines.unlines]
  rw [manifest, hbody]
  simp [Lines.unlines]

/-- **The file.** The manifest is written line by line. -/
theorem manifestFile_eq (contents : Contents) :
    manifestFile contents =
      Lines.unlines 0x0A ((manifestHeader :: bodyLines contents).map Utf8.encode) := by
  rw [manifestFile, manifest_eq]
  generalize manifestHeader :: bodyLines contents = lines
  induction lines with
  | nil => rfl
  | cons line lines ih =>
    simp only [Lines.unlines, List.flatMap_cons, List.map_cons] at ih ⊢
    rw [Utf8.encode_append, Utf8.encode_append, ih]
    rfl

end XfceLinux.Filemap
