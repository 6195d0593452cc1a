import XfceLinux.Fakecap.Claims
import XfceLinux.Fakecap.Restore
import XfceLinux.Lib.Purepath

/-!
# The two routes to the attributes

`apply-xattrs.py` reads `filemap.json` and sets the attributes component by component,
`fakecap-restore` reads `fakecap-manifest.tsv` and sets them line by line. Both visit the
claims of one file in the order of the elements, so that the same claim comes last
(`routes_agree`).
-/

namespace XfceLinux.Fakecap

open Lib Lib.Text Lib.Search Filemap

/-! ## The root directory -/

inductive FileKind where
  | plain
  | link (resolves : Bool)

/-- A root directory: a partial map from the names below it to distinct files. -/
structure Tree (ι : Type*) where
  /-- The path of the directory; the empty path leads nowhere. -/
  dir : Str
  named : dir ≠ []
  files : List Bytes → Option ι
  distinct : ∀ {p q f}, files p = some f → files q = some f → p = q
  kind : ι → FileKind
  /-- The error of setting an attribute of a file. -/
  refuses : ι → Attr → Option Errno

section Tree

variable {ι : Type*} (t : Tree ι)

/-- The file at a path of the kernel, when its last component is not followed. -/
def Tree.find (path : Bytes) : Except Errno ι :=
  let root := Path.resolve (Utf8.encode t.dir)
  let p := Path.resolve path
  if p.1 = root.1 ∧ root.2 <+: p.2 then
    match t.files (p.2.drop root.2.length) with
    | some f => .ok f
    | none => .error .ENOENT
  else .error .ENOENT

def Tree.rootfs : Rootfs ι where
  find := t.find
  refuses := t.refuses

/-- `Path.exists`, which follows a link. -/
def Tree.exists (target : Str) : Bool :=
  match t.find (Utf8.encode target) with
  | .error _ => false
  | .ok f =>
    match t.kind f with
    | .plain => true
    | .link resolves => resolves

/-- `Path.is_symlink` -/
def Tree.is_symlink (target : Str) : Bool :=
  match t.find (Utf8.encode target) with
  | .error _ => false
  | .ok f =>
    match t.kind f with
    | .plain => false
    | .link _ => true

theorem Tree.exists_or_is_symlink (target : Str) :
    (t.exists target || t.is_symlink target) = (t.find (Utf8.encode target)).isOk := by
  unfold Tree.exists Tree.is_symlink
  cases t.find (Utf8.encode target) with
  | error e => rfl
  | ok f => cases h : t.kind f <;> simp [h, Except.isOk, Except.toBool]

/-- A normalised path below the root. -/
def NormalPath (p : Str) : Prop :=
  ∃ cs : List Str, cs ≠ [] ∧ (∀ c ∈ cs, Path.Plain c) ∧ p = Path.render 1 cs

/-- The path that the tool joins leads where the root with the path behind it leads. -/
theorem Tree.find_truediv {p : Str} (hp : NormalPath p) :
    t.find (Utf8.encode (Path.truediv t.dir (lstrip (· = '/') p))) =
      t.find (Utf8.encode t.dir ++ Utf8.encode p) := by
  obtain ⟨cs, hcs, hplain, rfl⟩ := hp
  obtain ⟨c, cs, rfl⟩ := List.exists_cons_of_ne_nil hcs
  have hhead : (Path.render 0 (c :: cs)).head? ≠ some '/' := by
    intro hslash
    have habsolute : Path.isAbsolute (Path.render 0 (c :: cs)) = true := decide_eq_true hslash
    have hrelative := Path.isAbsolute_render_zero fun d hd => (hplain d hd).segment
    rw [hrelative] at habsolute
    cases habsolute
  have hrender : Path.render 1 (c :: cs) = '/' :: Path.render 0 (c :: cs) := rfl
  have hstrip : lstrip (· = '/') (Path.render 1 (c :: cs)) = Path.render 0 (c :: cs) := by
    have hself : lstrip (· = '/') (Path.render 0 (c :: cs)) = Path.render 0 (c :: cs) := by
      refine lstrip_eq_self fun d hd => decide_eq_false fun hslash => hhead ?_
      rw [← hslash]
      exact hd
    have hslash : ∀ c ∈ ['/'], decide (c = '/') = true := by simp
    exact (lstrip_append hslash _).trans hself
  rw [hstrip, hrender, ← Utf8.encode_append]
  simp only [Tree.find, Path.resolve_truediv t.named hhead]

theorem Tree.find_normal {cs : List Str} (hplain : ∀ c ∈ cs, Path.Plain c) :
    t.find (Utf8.encode t.dir ++ Utf8.encode (Path.render 1 cs)) =
      match t.files (cs.map Utf8.encode) with
      | some f => .ok f
      | none => .error .ENOENT := by
  have hparts : Path.parts (t.dir ++ Path.render 1 cs) = Path.parts t.dir ++ cs := by
    have hcons := Path.segments_append_cons '/' '.' t.dir (Path.render 0 cs)
    have hrender := Path.parts_render 0 fun c hc => (hplain c hc).segment
    rw [Path.parts] at hrender
    rw [hrender] at hcons
    exact hcons
  have habsolute : Path.isAbsolute (t.dir ++ Path.render 1 cs) = Path.isAbsolute t.dir := by
    obtain ⟨c, dir, hdir⟩ := List.exists_cons_of_ne_nil t.named
    rw [hdir]
    rfl
  rw [← Utf8.encode_append]
  simp only [Tree.find, Path.resolve_encode, hparts, habsolute, List.map_append]
  rw [if_pos ⟨trivial, List.prefix_append _ _⟩, List.drop_left]

end Tree

/-! ## The tool `apply-xattrs.py` -/

variable {ι : Type*} [DecidableEq ι]

/-- The variables of `main`, and the attributes on the files. -/
structure ApplyState (ι : Type*) where
  attrs : Attrs ι
  ok : Nat := 0
  skip : Nat := 0
  err : Nat := 0

/-- One turn of the inner loop; `none` is an exception that `main` does not catch. -/
def applyFile (t : Tree ι) (element : Str) (info : List (Str × Json.Value)) (s : ApplyState ι)
    (file : Json.Value) : Option (ApplyState ι) :=
  match file with
  | .str file_path =>
    let rel := lstrip (· = '/') file_path
    let target := Path.truediv t.dir rel
    if !t.exists target && !t.is_symlink target then some { s with skip := s.skip + 1 }
    else
      match t.rootfs.lsetxattr s.attrs (Utf8.encode target) .component (Utf8.encode element) with
      | .error _ => some { s with err := s.err + 1 }
      | .ok attrs =>
        match (Dict.get? info "interval".toList).getD (.str "weekly".toList) with
        | .str interval =>
          match t.rootfs.lsetxattr attrs (Utf8.encode target) .interval
              (Utf8.encode interval) with
          | .error _ => some { s with attrs, err := s.err + 1 }
          | .ok attrs => some { s with attrs, ok := s.ok + 1 }
        | _ => none
  | _ => none

/-- One turn of the outer loop. -/
def applyInfo (t : Tree ι) (s : ApplyState ι) (item : Str × Json.Value) :
    Option (ApplyState ι) :=
  item.2.dict?.bind fun info =>
    ((Dict.get? info "files".toList).getD (.arr [])).elements.foldlM (applyFile t item.1 info) s

/-- `main` on the text of the file map and on files that carry `attrs`. -/
def applyXattrs (t : Tree ι) (text : Str) (attrs : Attrs ι) : Option (ApplyState ι) :=
  (Json.loads text).bind fun filemap =>
    filemap.dict?.bind fun items => items.foldlM (applyInfo t) { attrs }

/-! ## Its turns -/

/-- The turn for a claim of the file map. -/
def applyClaim (t : Tree ι) (s : ApplyState ι) (claim : Str × Str) : Option (ApplyState ι) :=
  applyFile t claim.2 [("interval".toList, .str (guessInterval claim.2))] s (.str claim.1)

/-- One turn tags the file at the root with the path behind it. -/
theorem applyClaim_eq_tag (t : Tree ι) {claim : Str × Str} (hpath : NormalPath claim.1)
    (s : ApplyState ι) :
    ∃ s', applyClaim t s claim = some s' ∧ s'.attrs =
      t.rootfs.tag s.attrs (Utf8.encode t.dir ++ Utf8.encode claim.1) (claimEntry claim) := by
  have htarget := t.find_truediv hpath
  have hseen := t.exists_or_is_symlink (Path.truediv t.dir (lstrip (· = '/') claim.1))
  have hinterval : (Dict.get? [("interval".toList, Json.Value.str (guessInterval claim.2))]
      "interval".toList).getD (.str "weekly".toList) = .str (guessInterval claim.2) := rfl
  have hset := Rootfs.lsetxattr_congr (show t.rootfs.find _ = t.rootfs.find _ from htarget)
  rw [htarget] at hseen
  simp only [applyClaim, applyFile, hinterval, ← Bool.not_or, hseen, hset]
  cases hfind : t.find (Utf8.encode t.dir ++ Utf8.encode claim.1) with
  | error e =>
    refine ⟨{ s with skip := s.skip + 1 }, rfl, ?_⟩
    exact (Rootfs.tag_of_error hfind s.attrs (claimEntry claim)).symm
  | ok f =>
    simp only [Rootfs.tag, claimEntry, Except.isOk, Except.toBool, Bool.not_true,
      Bool.false_eq_true, if_false]
    cases t.rootfs.lsetxattr s.attrs (Utf8.encode t.dir ++ Utf8.encode claim.1) .component
        (Utf8.encode claim.2) with
    | error e => exact ⟨{ s with err := s.err + 1 }, rfl, rfl⟩
    | ok attrs =>
      dsimp only
      cases t.rootfs.lsetxattr attrs (Utf8.encode t.dir ++ Utf8.encode claim.1) .interval
          (Utf8.encode (guessInterval claim.2)) with
      | error e => exact ⟨{ s with attrs, err := s.err + 1 }, rfl, rfl⟩
      | ok attrs => exact ⟨{ s with attrs, ok := s.ok + 1 }, rfl, rfl⟩

/-- What one turn leaves on the files. -/
theorem applyClaim_attrs (t : Tree ι) {claim : Str × Str} (hpath : NormalPath claim.1)
    (hfits : (Utf8.encode (t.dir ++ claim.1)).length < bufferSize) (s : ApplyState ι) :
    ∃ s', applyClaim t s claim = some s' ∧ ∀ k : ι × Attr, s'.attrs k.1 k.2 =
      if (claimEntry claim).leadsTo t.rootfs (Utf8.encode t.dir) k.1 && t.rootfs.sets k.1 k.2
      then some ((claimEntry claim).value k.2) else s.attrs k.1 k.2 := by
  have hshort : (Utf8.encode t.dir ++ (claimEntry claim).path).length < bufferSize := by
    rw [claimEntry, ← Utf8.encode_append]
    exact hfits
  obtain ⟨s', hs', hattrs⟩ := applyClaim_eq_tag t hpath s
  refine ⟨s', hs', fun k => ?_⟩
  rw [hattrs]
  exact t.rootfs.tag_attrs hshort s.attrs k.1 k.2

/-! ## Its run -/

/-- The turns for one component are those for its claims. -/
theorem applyInfo_value (t : Tree ι) (s : ApplyState ι) {e : Str × Component}
    (hinterval : e.2.interval = guessInterval e.1) :
    applyInfo t s (e.1, e.2.value) = (e.2.files.map (·, e.1)).foldlM (applyClaim t) s := by
  have hkeys : (["interval".toList, "files".toList] : List Str).Nodup := by decide
  have hdict : e.2.value.dict? = some [("interval".toList, .str e.2.interval),
      ("files".toList, .arr (e.2.files.map .str))] :=
    congrArg some (Json.dictOf_eq_self hkeys)
  rw [applyInfo, hdict, hinterval]
  show ((e.2.files.map Json.Value.str).foldlM _ s) = _
  rw [List.foldlM_map, List.foldlM_map]
  rfl

theorem foldlM_applyInfo (t : Tree ι) {es : List (Str × Component)}
    (hes : ∀ e ∈ es, e.2.interval = guessInterval e.1) (s : ApplyState ι) :
    (es.map fun e => (e.1, e.2.value)).foldlM (applyInfo t) s =
      (es.flatMap fun e => e.2.files.map (·, e.1)).foldlM (applyClaim t) s := by
  induction es generalizing s with
  | nil => rfl
  | cons e es ih =>
    rw [List.map_cons, List.foldlM_cons, applyInfo_value t s (hes e List.mem_cons_self),
      List.flatMap_cons, List.foldlM_append]
    exact bind_congr fun s' => ih (fun e' he' => hes e' (List.mem_cons_of_mem e he')) s'

/-- The tool visits the claims in the order in which the file map lists them. -/
theorem applyXattrs_filemapFile (t : Tree ι) (contents : Contents) (attrs : Attrs ι) :
    applyXattrs t (filemapFile contents) attrs =
      (visited contents).foldlM (applyClaim t) { attrs } := by
  have hkeys : (((filemap contents).map fun e => (e.1, e.2.value)).map (·.1)).Nodup := by
    rw [List.map_map]
    exact nodup_filemap contents
  have hloads : Json.loads (filemapFile contents) =
      some (.obj ((filemap contents).map fun e => (e.1, e.2.value))) := by
    have hend : ∀ c ∈ ['\n'], Json.isWhitespace c := by simp [Json.isWhitespace]
    exact Json.loads_dumps _ hend
  rw [applyXattrs, hloads, Option.bind_some, Json.Value.dict?, Json.dictOf_eq_self hkeys,
    Option.bind_some, foldlM_applyInfo t fun e he => interval_of_mem_filemap he]
  rfl

/-! ## Claims of one file -/

/-- Normalised paths that lead to one file are equal. -/
theorem path_eq_of_leadsTo (t : Tree ι) {f : ι} {x y : Str × Str} (hx : NormalPath x.1)
    (hy : NormalPath y.1) (hxf : (claimEntry x).leadsTo t.rootfs (Utf8.encode t.dir) f)
    (hyf : (claimEntry y).leadsTo t.rootfs (Utf8.encode t.dir) f) : x.1 = y.1 := by
  have hfile : ∀ {z : Str × Str} {cs : List Str}, (∀ c ∈ cs, Path.Plain c) →
      z.1 = Path.render 1 cs → (claimEntry z).leadsTo t.rootfs (Utf8.encode t.dir) f →
        t.files (cs.map Utf8.encode) = some f := by
    intro z cs hplain hz hzf
    have hfind := t.find_normal hplain
    rw [← hz] at hfind
    have hmatch := (Bool.and_eq_true_iff.mp hzf).2
    simp only [claimEntry, Tree.rootfs, hfind] at hmatch
    cases hg : t.files (cs.map Utf8.encode) with
    | none => simp [hg] at hmatch
    | some g => simpa [hg] using hmatch
  obtain ⟨cs, -, hplain, hcx⟩ := hx
  obtain ⟨ds, -, hplain', hdy⟩ := hy
  have hnames := t.distinct (hfile hplain hcx hxf) (hfile hplain' hdy hyf)
  have hinj : Function.Injective (List.map Utf8.encode) :=
    List.map_injective_iff.mpr fun _ _ => Utf8.encode_inj
  rw [hcx, hdy, hinj hnames]

/-- The lines of one path stand in the order of their elements. -/
theorem isLE_of_lineOf {x y : Str × Str} (hx : Printable x.2) (hpath : x.1 = y.1)
    (h : (compare (lineOf x) (lineOf y)).isLE) : (compare x.2 y.2).isLE := by
  have htab : ∀ c ∈ x.2, compare c '\t' = .gt := by
    intro c hc
    have hle := hx c hc
    have hlt : '\t' < c := Char.lt_def.mpr (Nat.lt_of_lt_of_le (by decide) hle)
    exact compare_gt_iff_gt.mpr hlt
  rw [lineOf, lineOf, hpath, List.append_assoc, List.append_assoc, compare_append_left,
    List.cons_append, List.cons_append, List.compare_cons_cons, Std.ReflOrd.compare_self] at h
  exact isLE_of_append_sep htab h

/-- **The order.** Both tools visit the claims of one file in the same order. -/
theorem filter_visited {contents : Contents} (hlegible : Legible contents)
    (w : Str × Str → Bool)
    (hpath : ∀ x ∈ listed contents, ∀ y ∈ listed contents, w x → w y → x.1 = y.1) :
    (visited contents).filter w = (sortOn lineOf (listed contents)).filter w := by
  have hmem : ∀ x ∈ (visited contents).filter w, x ∈ listed contents ∧ w x := fun x hx =>
    ⟨(perm_visited contents).mem_iff.mp (List.mem_filter.mp hx).1, (List.mem_filter.mp hx).2⟩
  have hperm : ((visited contents).filter w).Perm
      ((sortOn lineOf (listed contents)).filter w) :=
    ((perm_visited contents).trans (perm_sortOn lineOf (listed contents)).symm).filter w
  have hsorted : ((sortOn lineOf (listed contents)).filter w).Pairwise
      fun x y => (compare x.2 y.2).isLE := by
    have hlines := (pairwise_sortOn lineOf (listed contents)).filter w
    refine List.Pairwise.imp_of_mem ?_ hlines
    intro x y hx hy hxy
    obtain ⟨hx, hwx⟩ := hmem x (hperm.mem_iff.mpr hx)
    obtain ⟨hy, hwy⟩ := hmem y (hperm.mem_iff.mpr hy)
    exact isLE_of_lineOf (hlegible.element x hx) (hpath x hx y hy hwx hwy) hxy
  refine hperm.eq_of_pairwise ?_ ((pairwise_visited contents).filter w) hsorted
  intro x y hx hy hxy hyx
  obtain ⟨hx, hwx⟩ := hmem x hx
  obtain ⟨hy, hwy⟩ := hmem y (hperm.mem_iff.mpr hy)
  have helement : x.2 = y.2 :=
    Std.LawfulEqOrd.eq_of_compare (Std.OrientedCmp.isLE_antisymm hxy hyx)
  exact Prod.ext (hpath x hx y hy hwx hwy) helement

/-! ## The two routes -/

/-- **The two routes.** From the files that `gen-filemap.py` writes for one contents map,
`apply-xattrs` and `fakecap-restore` leave the same attributes on every file. -/
theorem routes_agree (t : Tree ι) (contents : Contents) (attrs : Attrs ι)
    (hlegible : Legible contents)
    (hnormal : ∀ claim ∈ listed contents, NormalPath claim.1)
    (hfits : ∀ claim ∈ listed contents, (Utf8.encode (t.dir ++ claim.1)).length ≤ 8191) :
    ∃ s, applyXattrs t (filemapFile contents) attrs = some s ∧
      ∀ f a, s.attrs f a =
        (restore t.rootfs (Utf8.encode t.dir) (manifestFile contents) attrs).attrs f a := by
  have hlisted : ∀ claim ∈ visited contents, claim ∈ listed contents := fun claim hclaim =>
    (perm_visited contents).mem_iff.mp hclaim
  obtain ⟨s, hrun, hread⟩ := Dict.foldlM_last_write
    (fun (s : ApplyState ι) (k : ι × Attr) => s.attrs k.1 k.2)
    (fun (k : ι × Attr) claim =>
      (claimEntry claim).leadsTo t.rootfs (Utf8.encode t.dir) k.1 && t.rootfs.sets k.1 k.2)
    (fun k claim => (claimEntry claim).value k.2)
    (fun claim hclaim s => applyClaim_attrs t (hnormal claim (hlisted claim hclaim))
      (Nat.lt_succ_of_le (hfits claim (hlisted claim hclaim))) s) { attrs }
  refine ⟨s, (applyXattrs_filemapFile t contents attrs).trans hrun, fun f a => ?_⟩
  rw [hread (f, a), restore, foldl_restoreEntry_of_sets, hlegible.restoreEntries,
    List.filter_map, List.getLast?_map, Option.map_map, filter_visited hlegible]
  · rfl
  intro x hx y hy hwx hwy
  exact path_eq_of_leadsTo t (hnormal x hx) (hnormal y hy) (Bool.and_eq_true_iff.mp hwx).1
    (Bool.and_eq_true_iff.mp hwy).1

/-- A root directory with the file `/f` alone. -/
def oneFileTree : Tree Unit where
  dir := "/r".toList
  named := by decide
  files names := if names = [ascii "f"] then some () else none
  distinct := by
    intro p q f hp hq
    split at hp
    · rename_i hp'
      split at hq
      · rename_i hq'
        rw [hp', hq']
      · cases hq
    · cases hp
  kind _ := .plain
  refuses _ _ := none

theorem routes_agree_two :
    ∃ s, applyXattrs oneFileTree
        (filemapFile (sharing ["a.bst".toList, "b.bst".toList] (by decide)))
          (fun _ _ => none) = some s ∧ s.attrs () .component = some (ascii "b.bst") := by
  have hpath : ∀ claim ∈ listed (sharing ["a.bst".toList, "b.bst".toList] (by decide)),
      claim.1 = Path.render 1 ["f".toList] := by decide +kernel
  obtain ⟨s, hrun, hattrs⟩ := routes_agree oneFileTree
    (sharing ["a.bst".toList, "b.bst".toList] (by decide)) (fun _ _ => none)
    ⟨by decide +kernel, by decide +kernel, by decide +kernel⟩
    (fun claim hclaim => ⟨["f".toList], by decide, by simp [Path.Plain], hpath claim hclaim⟩)
    (by decide +kernel)
  refine ⟨s, hrun, (hattrs () .component).trans ?_⟩
  decide +kernel

end XfceLinux.Fakecap
