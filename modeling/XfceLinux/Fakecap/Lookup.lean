import XfceLinux.Fakecap.Loader

/-!
# Looking up a path

`getxattr` of a component attribute searches the table that `manifest_load` has sorted. Of
`qsort` and `bsearch` only what the C library promises is used (`Searching`): that the table
is a sorted permutation of the entries, and that the search finds an entry of the path when
there is one. Which entry of several it finds is left open.
-/

namespace XfceLinux.Fakecap

open Lib Lib.Text Lib.Machine

/-! ## `qsort` and `bsearch` -/

def entryCmp (a b : Entry) : Ordering := strcmp a.path b.path

def SortedByPath (es : List Entry) : Prop := es.Pairwise fun a b => (entryCmp a b).isLE

/-- The two functions of the C library, and what they promise. -/
structure Searching where
  qsort : List Entry → List Entry
  bsearch : Entry → List Entry → Option Entry
  qsort_perm : ∀ es, (qsort es).Perm es
  qsort_sorted : ∀ es, SortedByPath (qsort es)
  of_bsearch : ∀ {key es e}, bsearch key es = some e → e ∈ es ∧ entryCmp key e = .eq
  bsearch_isSome : ∀ {key es}, SortedByPath es → (∃ e ∈ es, entryCmp key e = .eq) →
    (bsearch key es).isSome

/-- A stable sort, and the bisection of the GNU library. -/
def bisection : Searching where
  qsort := Search.sortOn Entry.path
  bsearch key := Search.bsearch fun e => entryCmp key e
  qsort_perm := Search.perm_sortOn Entry.path
  qsort_sorted := Search.pairwise_sortOn Entry.path
  of_bsearch := Search.of_bsearch
  bsearch_isSome := Search.bsearch_isSome

/-! ## The intercepted get -/

/-- A process with the library preloaded: its `qsort` and `bsearch`, `manifest` behind
`manifest_load`, `FAKECAP_STRIP_PREFIX` (empty when it is not set), and `fd_to_path`. -/
structure Preload where
  searching : Searching
  manifest : List Entry
  pfx : Bytes
  fdToPath : Nat → Option Bytes

/-- The process in which the loop of `manifest_load` has ended in `t`. -/
def Loader.preload (t : Loader) (searching : Searching) (pfx : Bytes)
    (fdToPath : Nat → Option Bytes) : Preload where
  searching := searching
  manifest := searching.qsort t.entries
  pfx := pfx
  fdToPath := fdToPath

def Preload.manifestLookup (p : Preload) (path : Bytes) : Option Entry :=
  if p.manifest.length = 0 then none
  else p.searching.bsearch ⟨stripPrefix p.pfx path, [], []⟩ p.manifest

/-- `manifest_getxattr` behind its lookup. -/
def serve (e? : Option Entry) (name : Bytes) (size : Nat) : Except Errno (Nat × Bytes) :=
  match e? with
  | none => .error .ENODATA
  | some e =>
    let val? :=
      if name = ascii "user.component" then some e.component
      else if name = ascii "user.update-interval" then some e.interval
      else none
    match val? with
    | none => .error .ENODATA
    | some val =>
      if size = 0 then .ok (val.length, [])
      else if size < val.length then .error .ERANGE
      else .ok (val.length, val)

def Preload.manifestGetxattr (p : Preload) (path name : Bytes) (size : Nat) :
    Except Errno (Nat × Bytes) :=
  serve (p.manifestLookup path) name size

/-- The path that a call is about; `fd_to_path` may fail. -/
def Preload.pathOf (p : Preload) : Target → Option Bytes
  | .path path => some path
  | .link path => some path
  | .fd fd => p.fdToPath fd

/-- What `getxattr`, `lgetxattr` and `fgetxattr` return, when `next` is what the next library
answers. -/
def Preload.getxattr (p : Preload) (next : Except Errno (Nat × Bytes)) (g : GetCall) (db : Db) :
    Except Errno (Nat × Bytes) :=
  match g.run db with
  | .manifest =>
    match p.pathOf g.target with
    | none => .error .ENODATA
    | some path => p.manifestGetxattr path g.name g.size
  | .next => next
  | .served result buffer => .ok (result, buffer)

/-- The lookup of the bisection is the one of `manifestLookup`. -/
theorem manifestGetxattr_bisection {file : Bytes} {t : Loader}
    (h : Steps Loader.step (Loader.start file) t) (ht : Halted Loader.step t) (pfx path : Bytes)
    (name : Bytes) (size : Nat) (fdToPath : Nat → Option Bytes) :
    (t.preload bisection pfx fdToPath).manifestGetxattr path name size =
      Fakecap.manifestGetxattr (manifestLoad file) pfx path name size := by
  have hentries := entries_of_halted h ht
  have hlength : (Search.sortOn Entry.path (entries (cString file))).length =
      (entries (cString file)).length :=
    (Search.perm_sortOn _ _).length_eq
  have hlookup : (t.preload bisection pfx fdToPath).manifestLookup path =
      Fakecap.manifestLookup (manifestLoad file) pfx path := by
    simp only [Preload.manifestLookup, Loader.preload, hentries, bisection,
      Fakecap.manifestLookup, manifestLoad, Table.sorted, hlength]
    rfl
  rw [Preload.manifestGetxattr, hlookup]
  rfl

/-! ## Membership -/

theorem entryCmp_eq_eq {a b : Entry} : entryCmp a b = .eq ↔ a.path = b.path :=
  strcmp_eq_eq

theorem mem_entries_iff {text : Bytes} (hzero : 0 ∉ text) (hnewline : NewlineTerminated text)
    {e : Entry} :
    e ∈ entries (cString text) ↔ ∃ line ∈ Lines.lines newline text, EntryLine line e := by
  have hentries := entries_unlines fun l (hl : l ∈ Lines.lines newline text) =>
    Lines.notMem_lines hl
  rw [hnewline.unlines] at hentries
  rw [cString_of_notMem hzero, hentries, List.mem_filterMap]
  simp only [entryOf_eq_some_iff]

section Membership

variable {t : Loader} {searching : Searching} {pfx path : Bytes} {fdToPath : Nat → Option Bytes}

theorem of_manifestLookup {e : Entry}
    (h : (t.preload searching pfx fdToPath).manifestLookup path = some e) :
    e ∈ t.entries ∧ e.path = stripPrefix pfx path := by
  unfold Preload.manifestLookup at h
  split at h
  · cases h
  · obtain ⟨hmem, hpath⟩ := searching.of_bsearch h
    exact ⟨(searching.qsort_perm _).mem_iff.mp hmem, (entryCmp_eq_eq.mp hpath).symm⟩

theorem manifestLookup_isSome (h : ∃ e ∈ t.entries, e.path = stripPrefix pfx path) :
    ((t.preload searching pfx fdToPath).manifestLookup path).isSome := by
  obtain ⟨e, he, hpath⟩ := h
  have hmem : e ∈ searching.qsort t.entries := (searching.qsort_perm _).mem_iff.mpr he
  have hne : (searching.qsort t.entries).length ≠ 0 := (List.length_pos_of_mem hmem).ne'
  unfold Preload.manifestLookup
  rw [Loader.preload, if_neg hne]
  exact searching.bsearch_isSome (searching.qsort_sorted _)
    ⟨e, hmem, entryCmp_eq_eq.mpr hpath.symm⟩

end Membership

theorem serve_eq (e? : Option Entry) (a : Attr) (size : Nat) :
    serve e? a.name size = (e?.map (·.value a)).elim (.error .ENODATA) fun val =>
      if size = 0 then .ok (val.length, [])
      else if size < val.length then .error .ERANGE
      else .ok (val.length, val) := by
  cases e? with
  | none => rfl
  | some e => cases a <;> rfl

/-- With a buffer that holds it, an intercepted get of a component attribute returns `value`,
whatever the kernel and the next library answer. -/
def Preload.Returns (p : Preload) (target : Target) (a : Attr) (value : Bytes) : Prop :=
  ∀ next kernel db size, value.length ≤ size →
    p.getxattr next ⟨kernel, target, a.name, size⟩ db = .ok (value.length, value)

theorem getxattr_component {p : Preload} {target : Target} {path : Bytes}
    (hpath : p.pathOf target = some path) (next : Except Errno (Nat × Bytes)) (kernel : Kernel)
    (db : Db) (a : Attr) (size : Nat) :
    p.getxattr next ⟨kernel, target, a.name, size⟩ db =
      serve (p.manifestLookup path) a.name size := by
  have hname : handleComponent a.name = true := by
    cases a <;> decide
  have hreply : GetCall.run ⟨kernel, target, a.name, size⟩ db = .manifest := if_pos hname
  rw [Preload.getxattr, hreply]
  simp only [hpath]
  rfl

theorem returns_iff {p : Preload} {target : Target} {path : Bytes}
    (hpath : p.pathOf target = some path) {a : Attr} {value : Bytes} :
    p.Returns target a value ↔ (p.manifestLookup path).map (·.value a) = some value := by
  unfold Preload.Returns
  simp only [getxattr_component hpath, serve_eq]
  rw [← elim_eq_iff]
  constructor
  · intro h size hsize
    exact h (.error .other) (oneFile 0) (fun _ => none) size (hsize value rfl)
  · intro h _ _ _ size hsize
    exact h size (by simpa using hsize)

/-- **Lookup is membership.** The loop of `manifest_load` ends. Then a get of `user.component`
with a buffer that is large enough succeeds if and only if some entry line has the path behind
`strip_prefix`. The component and the interval returned are those of one such line; else every
get fails. -/
theorem getxattr_membership {text : Bytes} (hzero : 0 ∉ text)
    (hnewline : NewlineTerminated text) :
    ∃ t, Steps Loader.step (Loader.start text) t ∧ Halted Loader.step t ∧
      ∀ (searching : Searching) (pfx : Bytes) (fdToPath : Nat → Option Bytes) (target : Target)
        (path : Bytes), (t.preload searching pfx fdToPath).pathOf target = some path →
      ((∃ component, (t.preload searching pfx fdToPath).Returns target .component component) ↔
        ∃ line ∈ Lines.lines newline text,
          ∃ e, EntryLine line e ∧ e.path = stripPrefix pfx path) ∧
      (∀ component, (t.preload searching pfx fdToPath).Returns target .component component →
        ∃ interval, (t.preload searching pfx fdToPath).Returns target .interval interval ∧
          ∃ line ∈ Lines.lines newline text,
            EntryLine line ⟨stripPrefix pfx path, component, interval⟩) ∧
      ((∀ line ∈ Lines.lines newline text,
          ∀ e, EntryLine line e → e.path ≠ stripPrefix pfx path) →
        ∀ next kernel db a size, (t.preload searching pfx fdToPath).getxattr next
          ⟨kernel, target, Attr.name a, size⟩ db = .error .ENODATA) := by
  obtain ⟨t, hrun, hhalted, hentries⟩ := load_eq text
  refine ⟨t, hrun, hhalted, fun searching pfx fdToPath target path hpath => ?_⟩
  have hmem : ∀ e, e ∈ t.entries ↔ ∃ line ∈ Lines.lines newline text, EntryLine line e := by
    intro e
    rw [hentries]
    exact mem_entries_iff hzero hnewline
  refine ⟨⟨?_, ?_⟩, ?_, ?_⟩
  · rintro ⟨component, h⟩
    obtain ⟨e, he, -⟩ := Option.map_eq_some_iff.mp ((returns_iff hpath).mp h)
    obtain ⟨hentry, hkey⟩ := of_manifestLookup he
    obtain ⟨line, hline, hread⟩ := (hmem e).mp hentry
    exact ⟨line, hline, e, hread, hkey⟩
  · rintro ⟨line, hline, e, hread, hkey⟩
    have hentry : e ∈ t.entries := (hmem e).mpr ⟨line, hline, hread⟩
    have hsome : ((t.preload searching pfx fdToPath).manifestLookup path).isSome :=
      manifestLookup_isSome ⟨e, hentry, hkey⟩
    obtain ⟨found, hfound⟩ := Option.isSome_iff_exists.mp hsome
    refine ⟨found.component, (returns_iff hpath).mpr ?_⟩
    rw [hfound]
    rfl
  · intro component h
    obtain ⟨e, he, hvalue⟩ := Option.map_eq_some_iff.mp ((returns_iff hpath).mp h)
    obtain ⟨hentry, hkey⟩ := of_manifestLookup he
    obtain ⟨line, hline, hread⟩ := (hmem e).mp hentry
    refine ⟨e.interval, (returns_iff hpath).mpr ?_, line, hline, ?_⟩
    · rw [he]
      rfl
    · rw [← hkey, ← hvalue]
      exact hread
  · intro hnone next kernel db a size
    have hlookup : (t.preload searching pfx fdToPath).manifestLookup path = none := by
      by_contra hsome
      obtain ⟨e, he⟩ := Option.ne_none_iff_exists'.mp hsome
      obtain ⟨hentry, hkey⟩ := of_manifestLookup he
      obtain ⟨line, hline, hread⟩ := (hmem e).mp hentry
      exact hnone line hline e hread hkey
    rw [getxattr_component hpath, hlookup]
    rfl

/-- A comment, two entries of one path, an empty line and a line without a tab. -/
def duplicates : Bytes := ascii "# c\n/a\tx\n/a\ty\tdaily\n\nz\n"

theorem getxattr_membership_duplicates :
    ∃ t, Steps Loader.step (Loader.start duplicates) t ∧ Halted Loader.step t ∧
      ∃ component, (t.preload bisection (ascii "/rootfs") fun _ => none).Returns
        (.path (ascii "/rootfs/a")) .component component := by
  have hzero : 0 ∉ duplicates := by decide
  have hnewline : NewlineTerminated duplicates := by
    rintro b ⟨⟩
    rfl
  have hline : ascii "/a\tx" ∈ Lines.lines newline duplicates := by decide +kernel
  have hentry : EntryLine (ascii "/a\tx") ⟨ascii "/a", ascii "x", ascii "weekly"⟩ :=
    entryOf_eq_some_iff.mp (by decide)
  obtain ⟨t, hrun, hhalted, h⟩ := getxattr_membership hzero hnewline
  have hmember := (h bisection (ascii "/rootfs") (fun _ => none) (.path (ascii "/rootfs/a"))
    (ascii "/rootfs/a") rfl).1
  exact ⟨t, hrun, hhalted, hmember.mpr ⟨_, hline, _, hentry, by decide⟩⟩

end XfceLinux.Fakecap
