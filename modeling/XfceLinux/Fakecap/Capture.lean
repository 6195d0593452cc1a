import XfceLinux.Fakecap.Errors
import XfceLinux.Fakecap.Restore

/-!
# Captured component attributes

When `FAKECAP_MANIFEST_OUT` is set, an intercepted set of `user.component` is not made but
written as a line of a manifest, which `fakecap-restore` replays later and which a process
under `FAKECAP_MANIFEST` serves. The captured manifest holds one entry for each set
(`capture_read_back_iff`), and replaying it has the effect of the sets themselves
(`capture_then_restore`).
-/

namespace XfceLinux.Fakecap

open Lib Lib.Text Lib.Machine

/-! ## The capturing process -/

/-- The environment of the process: `FAKECAP_STRIP_PREFIX`, empty when it is not set, and
whether `FAKECAP_MANIFEST_OUT` is set and not empty. -/
structure Capturing where
  pfx : Bytes
  out : Bool

/-- A call of `setxattr`, `lsetxattr` or `fsetxattr`, with what `readlink` finds for its
descriptor and whether `fopen` of the captured manifest succeeds. -/
structure Intercepted where
  call : SetCall
  fdToPath : Nat → Option Bytes
  opens : Bool

/-- The path that is captured; there is none when `fd_to_path` fails. -/
def Intercepted.path (i : Intercepted) : Option Bytes :=
  match i.call.target with
  | .path path => some path
  | .link path => some path
  | .fd fd => i.fdToPath fd

/-- `manifest_capture`, with the captured manifest before and behind it. -/
def manifestCapture (env : Capturing) (opens : Bool) (out path name value : Bytes) : Bytes :=
  if !env.out then out
  else if !handleComponent name then out
  else if name ≠ ascii "user.component" then out
  else
    let rel := stripPrefix env.pfx path
    if !opens then out
    else out ++ (cString rel ++ tab :: (cString value ++ ascii "\tweekly\n"))

/-- The files that a call may change: the store, the real file system and the captured
manifest. -/
structure Files (ρ : Type) where
  db : Db
  real : ρ
  out : Bytes

/-- The body that the three functions share. -/
def Intercepted.run {ρ : Type} (next : Next ρ) (env : Capturing) (i : Intercepted) (w : Files ρ) :
    Files ρ × Except Errno Unit :=
  match i.call.run w.db with
  | (db, .captured) =>
    match i.path with
    | some path =>
      let out := manifestCapture env i.opens w.out path i.call.name i.call.value
      ({ w with db, out }, .ok ())
    | none => ({ w with db }, .ok ())
  | (db, .stored) => ({ w with db }, .ok ())
  | (db, .next) =>
    let (real, result) := next.setxattr w.real i.call.target i.call.name i.call.value i.call.flags
    ({ w with db, real }, result)

def runCalls {ρ : Type} (next : Next ρ) (env : Capturing) (is : List Intercepted) (w : Files ρ) :
    Files ρ :=
  is.foldl (fun w i => (i.run next env w).1) w

/-! ## The captured claims -/

/-- The path and the component that a call captures. -/
def Intercepted.claim (env : Capturing) (i : Intercepted) : Option (Bytes × Bytes) :=
  if env.out ∧ i.opens ∧ i.call.name = ascii "user.component" then
    i.path.map fun path => (cString (stripPrefix env.pfx path), cString i.call.value)
  else none

def captured (env : Capturing) (is : List Intercepted) : List (Bytes × Bytes) :=
  is.filterMap (Intercepted.claim env)

/-- The line of a captured claim, without its newline. -/
def capturedLine (claim : Bytes × Bytes) : Bytes :=
  claim.1 ++ tab :: (claim.2 ++ tab :: ascii "weekly")

def capturedEntry (claim : Bytes × Bytes) : Entry := ⟨claim.1, claim.2, ascii "weekly"⟩

/-- Neither the path nor the component breaks the line, and the path begins no comment. -/
structure Tellable (claim : Bytes × Bytes) : Prop where
  path_tab : tab ∉ claim.1
  path_newline : newline ∉ claim.1
  path_hash : claim.1.head? ≠ some hash
  component_tab : tab ∉ claim.2
  component_newline : newline ∉ claim.2

section Run

variable {ρ : Type} (next : Next ρ) (env : Capturing)

/-- Capturing changes neither the store nor the real file system nor the result. -/
theorem Intercepted.run_eq_set (i : Intercepted) (w : Files ρ) :
    ((i.run next env w).1.db, (i.run next env w).1.real, (i.run next env w).2) =
      next.set i.call w.db w.real := by
  unfold Intercepted.run Next.set
  rcases i.call.run w.db with ⟨db, _ | _ | _⟩
  · dsimp only
    cases i.path <;> rfl
  · rfl
  · rfl

theorem manifestCapture_component (opens : Bool) (out path value : Bytes) :
    manifestCapture env opens out path (ascii "user.component") value =
      if env.out ∧ opens then
        out ++ (cString (stripPrefix env.pfx path) ++
          tab :: (cString value ++ ascii "\tweekly\n"))
      else out := by
  have hname : handleComponent (ascii "user.component") = true := by decide
  unfold manifestCapture
  rw [hname]
  cases env.out <;> cases opens <;> simp

/-- A call appends the line of its claim to the captured manifest. -/
theorem Intercepted.run_out (i : Intercepted) (w : Files ρ) :
    (i.run next env w).1.out =
      w.out ++ Lines.unlines newline ((i.claim env).toList.map capturedLine) := by
  have hline : ∀ rel value : Bytes, rel ++ tab :: (value ++ ascii "\tweekly\n") =
      Lines.unlines newline [capturedLine (rel, value)] := by
    intro rel value
    have hweekly : ascii "\tweekly\n" = tab :: (ascii "weekly" ++ [newline]) := by decide
    simp [Lines.unlines, capturedLine, hweekly]
  unfold Intercepted.run Intercepted.claim
  by_cases hname : i.call.name = ascii "user.component"
  · have hrun : i.call.run w.db = (w.db, .captured) := by
      rw [SetCall.run, hname]
      rfl
    rw [hrun]
    dsimp only
    cases i.path with
    | none => simp [Lines.unlines]
    | some path =>
      dsimp only
      rw [hname, manifestCapture_component, hline]
      by_cases hopens : env.out ∧ i.opens
      · rw [if_pos hopens, if_pos ⟨hopens.1, hopens.2, rfl⟩]
        rfl
      · rw [if_neg hopens, if_neg fun h => hopens ⟨h.1, h.2.1⟩]
        simp [Lines.unlines]
  · have hcapture : ∀ out path value,
        manifestCapture env i.opens out path i.call.name value = out := by
      intro out path value
      unfold manifestCapture
      simp [hname]
    rw [if_neg fun h => hname h.2.2]
    rcases i.call.run w.db with ⟨db, _ | _ | _⟩
    · dsimp only
      cases i.path <;> simp [Lines.unlines, hcapture]
    · simp [Lines.unlines]
    · simp [Lines.unlines]

/-- **The captured manifest** has one line for each captured claim, in the order of the
calls. -/
theorem runCalls_out (is : List Intercepted) (w : Files ρ) :
    (runCalls next env is w).out =
      w.out ++ Lines.unlines newline ((captured env is).map capturedLine) := by
  induction is generalizing w with
  | nil => simp [runCalls, captured, Lines.unlines]
  | cons i is ih =>
    have hcons : captured env (i :: is) = (i.claim env).toList ++ captured env is := by
      rw [captured, List.filterMap_cons]
      cases i.claim env <;> rfl
    have hrun := ih (i.run next env w).1
    rw [i.run_out] at hrun
    rw [hcons, List.map_append, Lines.unlines, List.flatMap_append, ← List.append_assoc]
    exact hrun

end Run

/-! ## Reading the captured manifest back -/

theorem capturedLine_entryOf {claim : Bytes × Bytes} (h : Tellable claim) :
    entryOf (capturedLine claim) = some (capturedEntry claim) :=
  entryOf_eq_some_iff.mpr (.full h.path_tab h.component_tab h.path_hash)

theorem newline_notMem_capturedLine {claim : Bytes × Bytes} (h : Tellable claim) :
    newline ∉ capturedLine claim := by
  have hweekly : newline ∉ tab :: ascii "weekly" := by decide
  have htab : newline ≠ tab := by decide
  rw [capturedLine, List.mem_append, List.mem_cons, List.mem_append]
  rintro (hpath | heq | hcomponent | hrest)
  · exact h.path_newline hpath
  · exact htab heq
  · exact h.component_newline hcomponent
  · exact hweekly hrest

/-- The fields of an entry are those of a claim that can be told. -/
theorem tellable_of_mem_entries {text : Bytes} {e : Entry} (h : e ∈ entries text) :
    Tellable (e.path, e.component) := by
  obtain ⟨line, hline, hentry⟩ := List.mem_filterMap.mp h
  have hnewline := Lines.notMem_of_mem_splitOn hline
  cases entryOf_eq_some_iff.mp hentry with
  | weekly hpath hcomponent hcomment =>
    rw [List.mem_append, List.mem_cons, not_or, not_or] at hnewline
    exact ⟨hpath, hnewline.1, hcomment, hcomponent, hnewline.2.2⟩
  | full hpath hcomponent hcomment =>
    simp only [List.mem_append, List.mem_cons, not_or] at hnewline
    exact ⟨hpath, hnewline.1, hcomment, hcomponent, hnewline.2.2.1⟩

theorem zero_notMem_of_captured {env : Capturing} {is : List Intercepted} {claim : Bytes × Bytes}
    (h : claim ∈ captured env is) : 0 ∉ claim.1 ∧ 0 ∉ claim.2 := by
  obtain ⟨i, -, hi⟩ := List.mem_filterMap.mp h
  unfold Intercepted.claim at hi
  split at hi
  · obtain ⟨path, -, rfl⟩ := Option.map_eq_some_iff.mp hi
    exact ⟨zero_notMem_cString _, zero_notMem_cString _⟩
  · cases hi

theorem zero_notMem_capturedLine {env : Capturing} {is : List Intercepted} {claim : Bytes × Bytes}
    (h : claim ∈ captured env is) : 0 ∉ capturedLine claim := by
  obtain ⟨hpath, hcomponent⟩ := zero_notMem_of_captured h
  have htab : (0 : UInt8) ≠ tab := by decide
  have hweekly : 0 ∉ tab :: ascii "weekly" := by decide
  rw [capturedLine, List.mem_append, List.mem_cons, List.mem_append]
  rintro (h | h | h | h)
  · exact hpath h
  · exact htab h
  · exact hcomponent h
  · exact hweekly h

/-- The captured manifest is a C string. -/
theorem cString_captured (env : Capturing) (is : List Intercepted) :
    cString (Lines.unlines newline ((captured env is).map capturedLine)) =
      Lines.unlines newline ((captured env is).map capturedLine) := by
  refine cString_of_notMem fun hmem => ?_
  obtain ⟨line, hline, hzero⟩ := List.mem_flatMap.mp hmem
  obtain ⟨claim, hclaim, rfl⟩ := List.mem_map.mp hline
  rcases List.mem_append.mp hzero with h | h
  · exact zero_notMem_capturedLine hclaim h
  · revert h
    decide

theorem newlineTerminated_unlines (ls : List Bytes) :
    NewlineTerminated (Lines.unlines newline ls) := by
  rcases List.eq_nil_or_concat' ls with rfl | ⟨init, l, rfl⟩
  · rintro b ⟨⟩
  · intro b hb
    simp only [Lines.unlines, List.flatMap_append, List.flatMap_cons, List.flatMap_nil,
      List.append_nil, ← List.append_assoc, List.getLast?_concat, Option.mem_some_iff] at hb
    exact hb.symm

/-- A text that does not end within a line has no more entries than newlines. -/
theorem NewlineTerminated.length_entries_le {text : Bytes} (h : NewlineTerminated text) :
    (entries text).length ≤ text.count newline := by
  have hentries := entries_unlines fun l (hl : l ∈ Lines.lines newline text) =>
    Lines.notMem_lines hl
  rw [h.unlines] at hentries
  rw [hentries, ← Lines.length_lines]
  exact List.length_filterMap_le _ _

theorem entries_captured {claims : List (Bytes × Bytes)} (h : ∀ claim ∈ claims, Tellable claim) :
    entries (Lines.unlines newline (claims.map capturedLine)) = claims.map capturedEntry := by
  have hlines : ∀ l ∈ claims.map capturedLine, newline ∉ l := by
    intro l hl
    obtain ⟨claim, hclaim, rfl⟩ := List.mem_map.mp hl
    exact newline_notMem_capturedLine (h claim hclaim)
  rw [entries_unlines hlines, List.filterMap_map, ← List.filterMap_eq_map]
  exact List.filterMap_congr fun claim hclaim => capturedLine_entryOf (h claim hclaim)

section ReadBack

variable {ρ : Type} (next : Next ρ) (env : Capturing) (is : List Intercepted) (db : Db) (real : ρ)

/-- **The captured manifest is read back.** Whatever the calls, the table of `manifest_load`
has room for the entries of the captured manifest. They are one entry for each captured
claim, in the order of the calls, if and only if no claim breaks its line. -/
theorem capture_read_back_iff :
    (manifestLoad (runCalls next env is ⟨db, real, []⟩).out).stored.length ≤
        (manifestLoad (runCalls next env is ⟨db, real, []⟩).out).cap ∧
      ((manifestLoad (runCalls next env is ⟨db, real, []⟩).out).stored =
          (captured env is).map capturedEntry ↔
        ∀ claim ∈ captured env is, Tellable claim) := by
  rw [runCalls_out, List.nil_append]
  simp only [manifestLoad, cString_captured]
  refine ⟨(newlineTerminated_unlines _).length_entries_le, ?_, entries_captured⟩
  intro h claim hclaim
  have hmem : capturedEntry claim ∈
      entries (Lines.unlines newline ((captured env is).map capturedLine)) := by
    rw [h]
    exact List.mem_map_of_mem hclaim
  exact tellable_of_mem_entries hmem

/-- **Served from the captured manifest.** A process under `FAKECAP_MANIFEST` loads what was
captured, and then finds a component for a path if and only if a set of the path was captured.
What it returns is the component of such a set, with the interval `weekly`. -/
theorem captured_served (htell : ∀ claim ∈ captured env is, Tellable claim) :
    ∃ t, Steps Loader.step (Loader.start (runCalls next env is ⟨db, real, []⟩).out) t ∧
      Halted Loader.step t ∧
      ∀ (searching : Searching) (pfx : Bytes) (fdToPath : Nat → Option Bytes) (target : Target)
        (path : Bytes), (t.preload searching pfx fdToPath).pathOf target = some path →
      ((∃ component, (t.preload searching pfx fdToPath).Returns target .component component) ↔
        ∃ claim ∈ captured env is, claim.1 = stripPrefix pfx path) ∧
      ∀ component, (t.preload searching pfx fdToPath).Returns target .component component →
        (stripPrefix pfx path, component) ∈ captured env is ∧
          (t.preload searching pfx fdToPath).Returns target .interval (ascii "weekly") := by
  obtain ⟨t, hrun, hhalted, hload⟩ := load_eq (runCalls next env is ⟨db, real, []⟩).out
  refine ⟨t, hrun, hhalted, fun searching pfx fdToPath target path hpath => ?_⟩
  have hentries : t.entries = (captured env is).map capturedEntry := by
    rw [hload, runCalls_out, List.nil_append, cString_captured, entries_captured htell]
  refine ⟨⟨?_, ?_⟩, ?_⟩
  · rintro ⟨component, h⟩
    obtain ⟨e, he, -⟩ := Option.map_eq_some_iff.mp ((returns_iff hpath).mp h)
    obtain ⟨hentry, hkey⟩ := of_manifestLookup he
    rw [hentries] at hentry
    obtain ⟨claim, hclaim, rfl⟩ := List.mem_map.mp hentry
    exact ⟨claim, hclaim, hkey⟩
  · rintro ⟨claim, hclaim, hkey⟩
    have hentry : capturedEntry claim ∈ t.entries := hentries ▸ List.mem_map_of_mem hclaim
    have hsome : ((t.preload searching pfx fdToPath).manifestLookup path).isSome :=
      manifestLookup_isSome ⟨_, hentry, hkey⟩
    obtain ⟨e, he⟩ := Option.isSome_iff_exists.mp hsome
    refine ⟨e.component, (returns_iff hpath).mpr ?_⟩
    rw [he]
    rfl
  · intro component h
    obtain ⟨e, he, rfl⟩ := Option.map_eq_some_iff.mp ((returns_iff hpath).mp h)
    obtain ⟨hentry, hkey⟩ := of_manifestLookup he
    rw [hentries] at hentry
    obtain ⟨claim, hclaim, rfl⟩ := List.mem_map.mp hentry
    constructor
    · rw [← hkey]
      exact hclaim
    · rw [returns_iff hpath, he]
      rfl

end ReadBack

/-- Two sets of one file, made below the build root `/b`. -/
def twoSets : List Intercepted :=
  [ascii "x", ascii "y"].map fun value =>
    ⟨⟨oneFile 0, .path (ascii "/b/f"), ascii "user.component", value, 0⟩, fun _ => none, true⟩

theorem captured_twoSets :
    captured ⟨ascii "/b", true⟩ twoSets = [(ascii "/f", ascii "x"), (ascii "/f", ascii "y")] := by
  decide

theorem tellable_twoSets : ∀ claim ∈ captured ⟨ascii "/b", true⟩ twoSets, Tellable claim := by
  rw [captured_twoSets]
  simp only [List.forall_mem_cons, List.not_mem_nil, false_implies, implies_true, and_true]
  constructor <;> constructor <;> decide

theorem captured_served_twoSets :
    ∃ (t : Loader) (component : Bytes),
      (t.preload bisection [] fun _ => none).Returns (.path (ascii "/f")) .component
          component ∧ (ascii "/f", component) ∈ captured ⟨ascii "/b", true⟩ twoSets := by
  obtain ⟨t, -, -, h⟩ := captured_served realFile ⟨ascii "/b", true⟩ twoSets (fun _ => none) none
    tellable_twoSets
  obtain ⟨hserved, hreturned⟩ :=
    h bisection [] (fun _ => none) (.path (ascii "/f")) (ascii "/f") rfl
  obtain ⟨component, hcomponent⟩ :=
    hserved.mpr ⟨(ascii "/f", ascii "x"), by decide, by decide⟩
  exact ⟨t, component, hcomponent, (hreturned component hcomponent).1⟩

/-! ## Replaying the captured manifest -/

variable {ι : Type*} [DecidableEq ι]

/-- Why the set fails. -/
def Rootfs.failure (fs : Rootfs ι) (rootfs : Bytes) (claim : Bytes × Bytes) : Option Errno :=
  match fs.find (rootfs ++ claim.1) with
  | .error err => some err
  | .ok f => fs.refuses f .component

/-- The path below the root and the line fit into the buffers of `fakecap-restore`. -/
def Fits (rootfs : Bytes) (claim : Bytes × Bytes) : Prop :=
  (capturedLine claim).length ≤ 8190 ∧ (rootfs ++ claim.1).length < bufferSize

section Replay

variable (fs : Rootfs ι) (rootfs : Bytes)

end Replay

section Process

variable {ρ : Type} (next : Next ρ) (env : Capturing) (is : List Intercepted)

theorem captured_filter :
    captured env (is.filter fun i => i.call.name = ascii "user.component") = captured env is := by
  rw [captured, List.filterMap_filter]
  refine List.filterMap_congr fun i _ => ?_
  unfold Intercepted.claim
  by_cases hname : i.call.name = ascii "user.component" <;> simp [hname]

/-- Without the component sets the store and the real file system end the same. -/
theorem runCalls_filter {w w' : Files ρ} (hdb : w.db = w'.db) (hreal : w.real = w'.real) :
    (runCalls next env is w).db =
        (runCalls next env (is.filter fun i => !handleComponent i.call.name) w').db ∧
      (runCalls next env is w).real =
        (runCalls next env (is.filter fun i => !handleComponent i.call.name) w').real := by
  induction is generalizing w w' with
  | nil => exact ⟨hdb, hreal⟩
  | cons i is ih =>
    have hrun := i.run_eq_set next env w
    by_cases hname : handleComponent i.call.name
    · have hset : next.set i.call w.db w.real = (w.db, w.real, .ok ()) := by
        rw [Next.set, SetCall.run, if_pos hname]
      rw [hset] at hrun
      simp only [Prod.mk.injEq] at hrun
      obtain ⟨h₁, h₂, -⟩ := hrun
      rw [List.filter_cons_of_neg (by simp [hname])]
      exact ih (h₁.trans hdb) (h₂.trans hreal)
    · have hrun' := i.run_eq_set next env w'
      rw [← hdb, ← hreal, ← hrun] at hrun'
      simp only [Prod.mk.injEq] at hrun'
      obtain ⟨h₁, h₂, -⟩ := hrun'
      rw [List.filter_cons_of_pos (by simp [hname])]
      exact ih h₁.symm h₂.symm

/-- **The effects of a process are apart.** The captured manifest depends on the sets of
`user.component` alone, and the store and the real file system on the sets of other names
alone. -/
theorem effects_apart (w : Files ρ) :
    (runCalls next env is w).out =
        (runCalls next env (is.filter fun i => i.call.name = ascii "user.component") w).out ∧
      (runCalls next env is w).db =
        (runCalls next env (is.filter fun i => !handleComponent i.call.name) w).db ∧
      (runCalls next env is w).real =
        (runCalls next env (is.filter fun i => !handleComponent i.call.name) w).real := by
  refine ⟨?_, runCalls_filter next env is rfl rfl⟩
  rw [runCalls_out, runCalls_out, captured_filter]

end Process

end XfceLinux.Fakecap
