import XfceLinux.Lib.Glob

/-!
# The search for the live ISO

`xfce-linux-isofile.sh` mounts one partition after another, attaches the ISO files that it
finds there to loop devices, and stops at the first one with the label of the live system. It
gives back what it does not need on every way out: it holds one loop device and one mount
when it has found an image, and nothing otherwise. It only looks at devices whose names it
knows (`isofile_spec`). Detaching and unmounting succeed here, and nothing else makes the link
in the meantime.
-/

namespace XfceLinux.Live

open Lib Lib.Text Lib.Glob

/-! ## What the script finds -/

/-- A regular file. -/
structure File where
  /-- `losetup` attaches it. -/
  accepted : Bool
  /-- The label that `blkid` reads from it, if it has one. -/
  label : Str
deriving DecidableEq

inductive Node where
  | file (f : File)
  /-- A directory or a special file. -/
  | other

/-- What the paths behind the mount point lead to when a partition is mounted there. -/
structure Partition where
  /-- The names in the directory at a path. -/
  names : Str → List Str
  stat : Str → Option Node

structure System where
  /-- The names in the directories of `/dev`. -/
  names : Str → List Str
  /-- `[ -b path ]` -/
  block : Str → Bool
  /-- The file system of a device, if it can be mounted. -/
  mount : Str → Option Partition
  iso_hint : Str

/-! ## What the script holds -/

structure Loop where
  number : Nat
  /-- The path of the backing file. -/
  file : Str
deriving DecidableEq

structure Mount where
  dev : Str
  point : Str
deriving DecidableEq

structure State where
  /-- The loop devices in use, the latest first. -/
  loops : List Loop
  /-- The mounts, the latest first. -/
  mounts : List Mount
  /-- What `/dev/disk/by-label/XFCE_LINUX_LIVE` leads to. -/
  label_link : Option Str
  found_marker : Bool
deriving DecidableEq

def LABEL : Str := "XFCE_LINUX_LIVE".toList

def RUN_DIR : Str := "/run/initramfs/xfce-linux-isofile".toList

/-- The node of a loop device. -/
def loopdev (n : Nat) : Str := "/dev/loop".toList ++ (toString n).toList

theorem exists_unused (used : List Nat) : ∃ n, n ∉ used := by
  obtain ⟨n, hn⟩ := Infinite.exists_notMem_finset used.toFinset
  exact ⟨n, by simpa using hn⟩

/-- `losetup --find`: the first loop device that is not in use. -/
def State.unused (s : State) : Nat := Nat.find (exists_unused (s.loops.map Loop.number))

def State.losetup (s : State) (n : Nat) (iso : Str) : State :=
  { s with loops := ⟨n, iso⟩ :: s.loops }

/-- `losetup -d` -/
def State.detach (s : State) (n : Nat) : State :=
  { s with loops := s.loops.eraseP fun l => l.number == n }

def State.mount (s : State) (dev mp : Str) : State :=
  { s with mounts := ⟨dev, mp⟩ :: s.mounts }

def State.umount (s : State) (mp : Str) : State :=
  { s with mounts := s.mounts.eraseP fun m => m.point == mp }

/-- The link and the marker of an image that has been found. -/
def State.expose (s : State) (n : Nat) : State :=
  { s with label_link := some (loopdev n), found_marker := true }

/-! ## The search -/

/-- `try_iso`, for a path behind the mount point. The result is true for `return 0`. -/
def try_iso (part : Partition) (mp path : Str) (s : State) : Bool × State :=
  match part.stat path with
  | some (.file f) =>
    if f.accepted then
      let n := s.unused
      let s := s.losetup n (mp ++ path)
      if f.label = LABEL then (true, s.expose n)
      else (false, s.detach n)
    else (false, s)
  | _ => (false, s)

/-- The loop over the words of `scan_mount`. -/
def try_words (part : Partition) (mp : Str) : List Str → State → Bool × State
  | [], s => (false, s)
  | path :: paths, s =>
    if (part.stat path).isNone then try_words part mp paths s
    else
      let r := try_iso part mp path s
      if r.1 then r else try_words part mp paths r.2

/-- The words behind `"$mp"`. -/
def isoWords : List Word :=
  let iso := .star :: lit ".iso"
  let named := lit "xfce-linux" ++ iso
  [⟨[], named⟩, ⟨[], lit "xfce" ++ iso⟩, ⟨[], iso⟩,
    ⟨[.name "ISO".toList], iso⟩, ⟨[.name "iso".toList], iso⟩,
    ⟨[.glob [.star]], named⟩, ⟨[.glob [.star]], iso⟩]

variable (sys : System)

/-- The `case` of the hint in `scan_mount`. -/
def try_hint (part : Partition) (mp : Str) (s : State) : Bool × State :=
  if sys.iso_hint = [] then (false, s)
  else if sys.iso_hint.head? = some '/' then try_iso part mp sys.iso_hint s
  else try_iso part mp ('/' :: sys.iso_hint) s

/-- The mount point of a device, by its base name. -/
def mountPoint (dev : Str) : Str := RUN_DIR ++ "/mnt-".toList ++ rsplitLast '/' dev

def scan_mount (dev : Str) (s : State) : Bool × State :=
  let mp := mountPoint dev
  match sys.mount dev with
  | none => (false, s)
  | some part =>
    let r := try_hint sys part mp (s.mount dev mp)
    if r.1 then r
    else
      let r := try_words part mp (isoWords.flatMap fun w => w.expand part.names []) r.2
      if r.1 then r else (false, r.2.umount mp)

/-- The words of the device loop. -/
def deviceWords : List Word :=
  let digit := Item.range '0' '9'
  [⟨[.name "disk".toList, .name "by-label".toList], [.star]⟩,
    ⟨[.name "disk".toList, .name "by-id".toList], .star :: lit "-part" ++ [.star]⟩,
    ⟨[], lit "sd" ++ [.star, digit]⟩, ⟨[], lit "vd" ++ [.star, digit]⟩,
    ⟨[], lit "nvme" ++ .star :: lit "n" ++ .star :: lit "p" ++ [.star]⟩,
    ⟨[], lit "mmcblk" ++ .star :: lit "p" ++ [.star]⟩]

/-- The devices that the script goes through. -/
def devices : List Str := deviceWords.flatMap fun w => w.expand sys.names "/dev".toList

def scan_devices : List Str → State → Bool × State
  | [], s => (false, s)
  | dev :: devs, s =>
    if !sys.block dev then scan_devices devs s
    else if s.label_link.isSome then (true, s)
    else
      let r := scan_mount sys dev s
      if r.1 then r else scan_devices devs r.2

/-- The whole script; the result is true for `return 0`. -/
def isofile (s : State) : Bool × State :=
  if s.label_link.isSome then (true, s)
  else if s.found_marker then (true, s)
  else scan_devices sys (devices sys) s

/-! ## Candidates -/

/-- The path of the hint behind the mount point, if there is a hint. -/
def hintPath (hint : Str) : Option Str :=
  if hint = [] then none
  else if hint.head? = some '/' then some hint
  else some ('/' :: hint)

/-- The hint path, or a match of one of the words. -/
def Candidate (hint : Str) (part : Partition) (path : Str) : Prop :=
  hintPath hint = some path ∨ ∃ w ∈ isoWords, path ∈ w.paths part.names []

/-- `losetup` accepts the file at the path, and it has the label. -/
def Partition.Carries (part : Partition) (path : Str) : Prop :=
  ∃ f, part.stat path = some (.file f) ∧ f.accepted = true ∧ f.label = LABEL

def Partition.carries (part : Partition) (path : Str) : Bool :=
  match part.stat path with
  | some (.file f) => f.accepted && decide (f.label = LABEL)
  | _ => false

theorem carries_iff {part : Partition} {path : Str} :
    part.carries path = true ↔ part.Carries path := by
  rw [Partition.carries, Partition.Carries]
  cases part.stat path with
  | none => simp
  | some node => cases node <;> simp

/-- The paths that are tried on a partition, in order. -/
def tried (hint : Str) (part : Partition) : List Str :=
  (hintPath hint).toList ++ isoWords.flatMap fun w => w.expand part.names []

theorem Candidate.mem_tried {hint : Str} {part : Partition} {path : Str}
    (h : Candidate hint part path) : path ∈ tried hint part := by
  rw [tried, List.mem_append]
  rcases h with hhint | ⟨w, hw, hpath⟩
  · left
    rw [hhint]
    exact List.mem_singleton_self path
  · right
    exact List.mem_flatMap.mpr ⟨w, hw, mem_expand_of_mem_paths hpath⟩

/-- The directories that the words lead to: the root, `ISO`, `iso` and those below the root
that are not hidden. -/
def IsoDir (part : Partition) (d : Str) : Prop :=
  d = [] ∨ d = "/ISO".toList ∨ d = "/iso".toList ∨
    ∃ n ∈ part.names [], n.head? ≠ some '.' ∧ d = '/' :: n

theorem lists_iso_iff {n : Str} :
    lists (.star :: lit ".iso") n = true ↔ ".iso".toList <:+ n ∧ n.head? ≠ some '.' := by
  rw [lists_iff (by simp), fits_star_lit]

/-- The words with a name match no more than those without. -/
theorem lists_iso_of_named {front : String} (hfront : (lit front).head? ≠ some (.char '.'))
    (hne : lit front ≠ []) {n : Str} (h : lists (lit front ++ .star :: lit ".iso") n = true) :
    lists (.star :: lit ".iso") n = true := by
  rw [lists_iff (by rwa [List.head?_append_of_ne_nil _ hne])] at h
  exact lists_iso_iff.mpr ⟨suffix_of_fits h.1, h.2⟩

theorem lists_star_iff {n : Str} : lists [.star] n = true ↔ n.head? ≠ some '.' := by
  rw [lists_iff (by simp), fits_star]
  exact and_iff_right ⟨[], List.nil_suffix, rfl⟩

/-- Each word stays within the directories and the names, and the bare ones reach them all. -/
theorem mem_isoWords {w : Word} (hw : w ∈ isoWords) (part : Partition) :
    (∀ d ∈ directories part.names [] w.dirs, IsoDir part d) ∧
      ∀ n, lists w.last n = true → lists (.star :: lit ".iso") n = true := by
  have hNamed : ∀ n, lists (lit "xfce-linux" ++ .star :: lit ".iso") n = true →
      lists (.star :: lit ".iso") n = true := fun _ => lists_iso_of_named (by decide) (by decide)
  have hXfce : ∀ n, lists (lit "xfce" ++ .star :: lit ".iso") n = true →
      lists (.star :: lit ".iso") n = true := fun _ => lists_iso_of_named (by decide) (by decide)
  have hBelow : ∀ d ∈ directories part.names [] [.glob [.star]], IsoDir part d := by
    intro d hd
    simp only [directories, List.mem_flatMap, List.mem_filter, List.mem_singleton,
      lists_star_iff] at hd
    obtain ⟨n, ⟨hn, hvisible⟩, rfl⟩ := hd
    exact .inr (.inr (.inr ⟨n, hn, hvisible, rfl⟩))
  simp only [isoWords, List.mem_cons, List.not_mem_nil, or_false] at hw
  rcases hw with rfl | rfl | rfl | rfl | rfl | rfl | rfl
  · exact ⟨by simp [directories, IsoDir], hNamed⟩
  · exact ⟨by simp [directories, IsoDir], hXfce⟩
  · exact ⟨by simp [directories, IsoDir], fun _ => id⟩
  · exact ⟨by simp [directories, IsoDir], fun _ => id⟩
  · exact ⟨by simp [directories, IsoDir], fun _ => id⟩
  · exact ⟨hBelow, hNamed⟩
  · exact ⟨hBelow, fun _ => id⟩

theorem exists_isoWord {part : Partition} {d : Str} (h : IsoDir part d) :
    ∃ dirs, ⟨dirs, .star :: lit ".iso"⟩ ∈ isoWords ∧ d ∈ directories part.names [] dirs := by
  rcases h with rfl | rfl | rfl | ⟨n, hn, hvisible, rfl⟩
  · exact ⟨[], by simp [isoWords], by simp [directories]⟩
  · exact ⟨[.name "ISO".toList], by simp [isoWords], by simp [directories]⟩
  · exact ⟨[.name "iso".toList], by simp [isoWords], by simp [directories]⟩
  · refine ⟨[.glob [.star]], by simp [isoWords], ?_⟩
    simp only [directories, List.mem_flatMap, List.mem_filter, lists_star_iff]
    exact ⟨n, ⟨hn, hvisible⟩, List.mem_singleton_self _⟩

/-- Together the seven words match the visible `.iso` names in these directories. -/
theorem matches_iff {part : Partition} {path : Str} :
    (∃ w ∈ isoWords, path ∈ w.paths part.names []) ↔
      ∃ d, IsoDir part d ∧ ∃ n ∈ part.names d,
        ".iso".toList <:+ n ∧ n.head? ≠ some '.' ∧ path = d ++ '/' :: n := by
  constructor
  · rintro ⟨w, hw, hpath⟩
    obtain ⟨d, hd, n, hn, hlists, rfl⟩ := mem_paths.mp hpath
    obtain ⟨hsuffix, hvisible⟩ := lists_iso_iff.mp ((mem_isoWords hw part).2 n hlists)
    exact ⟨d, (mem_isoWords hw part).1 d hd, n, hn, hsuffix, hvisible, rfl⟩
  · rintro ⟨d, hd, n, hn, hsuffix, hvisible, rfl⟩
    obtain ⟨dirs, hw, hdirs⟩ := exists_isoWord hd
    exact ⟨_, hw, mem_paths.mpr
      ⟨d, hdirs, n, hn, lists_iso_iff.mpr ⟨hsuffix, hvisible⟩, rfl⟩⟩

/-! ## What each step holds -/

theorem unused_notMem (s : State) : s.unused ∉ s.loops.map Loop.number :=
  Nat.find_spec (exists_unused _)

theorem detach_losetup (s : State) (n : Nat) (iso : Str) : (s.losetup n iso).detach n = s := by
  simp [State.losetup, State.detach]

theorem umount_mount (s : State) (dev mp : Str) : (s.mount dev mp).umount mp = s := by
  simp [State.mount, State.umount]

/-- The state behind an image that has been found. -/
def State.use (s : State) (iso : Str) : State := (s.losetup s.unused iso).expose s.unused

/-- One file: the image is used, and anything else leaves the state as it was. -/
theorem try_iso_eq (part : Partition) (mp path : Str) (s : State) :
    try_iso part mp path s =
      if part.carries path = true then (true, s.use (mp ++ path)) else (false, s) := by
  unfold try_iso Partition.carries
  cases part.stat path with
  | none => rfl
  | some node =>
    cases node with
    | other => rfl
    | file f =>
      dsimp only
      rw [detach_losetup]
      by_cases haccepted : f.accepted = true
      · rw [if_pos haccepted]
        simp only [haccepted, Bool.true_and, decide_eq_true_eq]
        rfl
      · rw [if_neg haccepted]
        simp [haccepted]

theorem isNone_stat {part : Partition} {path : Str} (h : part.carries path = true) :
    (part.stat path).isNone = false := by
  obtain ⟨f, hf, -⟩ := carries_iff.mp h
  rw [hf]
  rfl

/-- The first image among the words is used. -/
theorem try_words_eq (part : Partition) (mp : Str) (paths : List Str) (s : State) :
    try_words part mp paths s =
      ((paths.find? part.carries).map fun path => (true, s.use (mp ++ path))).getD (false, s) := by
  induction paths with
  | nil => rfl
  | cons path paths ih =>
    rw [try_words, try_iso_eq, List.find?_cons]
    cases hlive : part.carries path with
    | true =>
      rw [isNone_stat hlive, if_neg Bool.false_ne_true, if_pos rfl]
      rfl
    | false =>
      rw [if_neg Bool.false_ne_true]
      dsimp only
      split <;> exact ih

theorem try_hint_eq (part : Partition) (mp : Str) (s : State) :
    try_hint sys part mp s =
      (((hintPath sys.iso_hint).toList.find? part.carries).map fun path =>
        (true, s.use (mp ++ path))).getD (false, s) := by
  have hOne : ∀ path, try_iso part mp path s =
      ((((some path).toList).find? part.carries).map fun path =>
        (true, s.use (mp ++ path))).getD (false, s) := by
    intro path
    rw [try_iso_eq, Option.toList_some, List.find?_singleton]
    split <;> rfl
  rw [try_hint, hintPath]
  split
  · rfl
  split
  · exact hOne sys.iso_hint
  · exact hOne ('/' :: sys.iso_hint)

/-- A partition: the first image among the paths that are tried is used, or nothing is held. -/
theorem scan_mount_eq {dev : Str} {part : Partition} (hpart : sys.mount dev = some part)
    (s : State) :
    scan_mount sys dev s =
      (((tried sys.iso_hint part).find? part.carries).map fun path =>
        (true, (s.mount dev (mountPoint dev)).use (mountPoint dev ++ path))).getD (false, s) := by
  rw [scan_mount, hpart, tried, List.find?_append]
  dsimp only
  rw [try_hint_eq]
  cases (hintPath sys.iso_hint).toList.find? part.carries with
  | some path => rfl
  | none =>
    simp only [Option.map_none, Option.getD_none, Option.none_or, Bool.false_eq_true, if_false]
    rw [try_words_eq]
    cases (isoWords.flatMap fun w => w.expand part.names []).find? part.carries with
    | some path => rfl
    | none => simp [umount_mount]

/-! ## The device loop -/

/-- No image on the partition of the device, if it is one and can be mounted. -/
def Clean (dev : Str) : Prop :=
  sys.block dev = true → ∀ part, sys.mount dev = some part →
    ∀ path ∈ tried sys.iso_hint part, ¬ part.Carries path

/-- The image at `path` of the partition of `dev` is the one that is used. -/
structure Used (dev path : Str) (s t : State) : Prop where
  block : sys.block dev = true
  carries : ∃ part, sys.mount dev = some part ∧ part.Carries path
  state : t = (s.mount dev (mountPoint dev)).use (mountPoint dev ++ path)

variable {sys}

theorem scan_mount_cases (dev : Str) (hblock : sys.block dev = true) (s : State) :
    (scan_mount sys dev s = (false, s) ∧ Clean sys dev) ∨
      ∃ path t, scan_mount sys dev s = (true, t) ∧ Used sys dev path s t := by
  cases hmount : sys.mount dev with
  | none =>
    left
    refine ⟨?_, ?_⟩
    · rw [scan_mount, hmount]
    · intro _ part hpart
      rw [hmount] at hpart
      cases hpart
  | some part =>
    rw [scan_mount_eq sys hmount]
    cases hfound : (tried sys.iso_hint part).find? part.carries with
    | none =>
      left
      refine ⟨rfl, ?_⟩
      intro _ part' hpart' path hpath hcarries
      obtain rfl : part = part' := Option.some.inj (hmount.symm.trans hpart')
      exact List.find?_eq_none.mp hfound path hpath (carries_iff.mpr hcarries)
    | some path =>
      right
      exact ⟨path, _, rfl, hblock, ⟨part, hmount, carries_iff.mp (List.find?_some hfound)⟩, rfl⟩

/-- The devices one after another: they are all clean, or the image of one of them is used. -/
theorem scan_devices_cases {s : State} (hlink : s.label_link = none) (devs : List Str) :
    (scan_devices sys devs s = (false, s) ∧ ∀ dev ∈ devs, Clean sys dev) ∨
      ∃ dev ∈ devs, ∃ path t, scan_devices sys devs s = (true, t) ∧ Used sys dev path s t := by
  induction devs with
  | nil => exact .inl ⟨rfl, by simp⟩
  | cons dev devs ih =>
    have hLater : scan_devices sys (dev :: devs) s = scan_devices sys devs s →
        Clean sys dev →
        (scan_devices sys (dev :: devs) s = (false, s) ∧ ∀ d ∈ dev :: devs, Clean sys d) ∨
          ∃ d ∈ dev :: devs, ∃ path t,
            scan_devices sys (dev :: devs) s = (true, t) ∧ Used sys d path s t := by
      intro hstep hclean
      rw [hstep]
      rcases ih with ⟨hnone, hrest⟩ | ⟨d, hd, hused⟩
      · exact .inl ⟨hnone, List.forall_mem_cons.mpr ⟨hclean, hrest⟩⟩
      · exact .inr ⟨d, List.mem_cons_of_mem dev hd, hused⟩
    by_cases hblock : sys.block dev = true
    · rcases scan_mount_cases dev hblock s with ⟨hnone, hclean⟩ | ⟨path, t, hfound, hused⟩
      · apply hLater _ hclean
        simp [scan_devices, hblock, hlink, hnone]
      · right
        refine ⟨dev, List.mem_cons_self, path, t, ?_, hused⟩
        simp [scan_devices, hblock, hlink, hfound]
    · apply hLater
      · simp [scan_devices, hblock]
      · exact fun h => absurd h hblock

/-! ## The script -/

/-- **What the script holds and what it misses.** If it fails, no loop device and no mount of
its own is left, and no candidate on a partition that it goes through carries the label. If it
finds an image, it holds one loop device, which backs a file with the label and which the link
leads to, and the mount of the partition of that file. -/
theorem isofile_spec (sys : System) (s : State) :
    ((isofile sys s).1 = false →
      (isofile sys s).2.loops = s.loops ∧ (isofile sys s).2.mounts = s.mounts ∧
      ∀ dev ∈ devices sys, sys.block dev = true → ∀ part, sys.mount dev = some part →
        ∀ path, Candidate sys.iso_hint part path → ¬ part.Carries path) ∧
    (s.label_link = none → s.found_marker = false → (isofile sys s).1 = true →
      ∃ dev ∈ devices sys, ∃ part path n,
        sys.block dev = true ∧ sys.mount dev = some part ∧ part.Carries path ∧
        n ∉ s.loops.map Loop.number ∧
        (isofile sys s).2 =
          { loops := ⟨n, mountPoint dev ++ path⟩ :: s.loops
            mounts := ⟨dev, mountPoint dev⟩ :: s.mounts
            label_link := some (loopdev n)
            found_marker := true }) := by
  by_cases hthere : s.label_link.isSome = true ∨ s.found_marker = true
  · have hreturn : isofile sys s = (true, s) := by
      rcases hthere with hlink | hmarker
      · simp [isofile, hlink]
      · simp [isofile, hmarker]
    rw [hreturn]
    constructor
    · intro h
      cases h
    · intro hlink hmarker
      simp [hlink, hmarker] at hthere
  rw [not_or, Bool.not_eq_true, Option.isSome_eq_false_iff, Option.isNone_iff_eq_none] at hthere
  obtain ⟨hlink, hmarker⟩ := hthere
  have hscan : isofile sys s = scan_devices sys (devices sys) s := by
    simp [isofile, hlink, hmarker]
  rw [hscan]
  rcases scan_devices_cases hlink (devices sys) with
    ⟨hnone, hclean⟩ | ⟨dev, hdev, path, t, hfound, hused⟩
  · rw [hnone]
    constructor
    · intro _
      refine ⟨rfl, rfl, ?_⟩
      intro dev hdev hblock part hpart path hcandidate
      exact hclean dev hdev hblock part hpart path hcandidate.mem_tried
    · intro _ _ h
      cases h
  · rw [hfound]
    constructor
    · intro h
      cases h
    · intro _ _ _
      obtain ⟨part, hpart, hcarries⟩ := hused.carries
      exact ⟨dev, hdev, part, path, _, hused.block, hpart, hcarries, unused_notMem _,
        hused.state⟩

/-- A disk that none of the words names, with the image on it. -/
def xvdb : System where
  names path := if path = "/dev".toList then ["xvdb".toList, "xvdb1".toList] else []
  block path := path == "/dev/xvdb1".toList
  mount _ := some
    { names := fun path => if path = [] then ["xfce-linux.iso".toList] else []
      stat := fun path =>
        if path = "/xfce-linux.iso".toList then some (.file ⟨true, LABEL⟩) else none }
  iso_hint := []

theorem unnamed_disk_missed : ¬ ∀ (sys : System) (s : State), s.label_link = none →
    s.found_marker = false → (isofile sys s).1 = false →
    ∀ dev, sys.block dev = true → ∀ part, sys.mount dev = some part →
      ∀ path, Candidate sys.iso_hint part path → ¬ part.Carries path := by
  intro h
  refine h xvdb ⟨[], [], none, false⟩ rfl rfl ?_ "/dev/xvdb1".toList (by decide) _ rfl
    "/xfce-linux.iso".toList ?_ ?_
  · decide +kernel
  · right
    refine ⟨_, List.mem_cons_self, ?_⟩
    decide +kernel
  · exact ⟨_, rfl, rfl, rfl⟩

end XfceLinux.Live
