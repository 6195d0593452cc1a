import XfceLinux.Fakecap.Lookup

/-!
# Errors of the attribute store

`readxattr` and `writexattr` report an error of the store with `-1`, and the intercepted call
then goes on to the next library, whose own answer is returned. `store_errors_iff` says when
this answer is the error of the store, and when a write that fails leaves the stored value.
-/

namespace XfceLinux.Fakecap

open Lib Lib.Text

/-! ## The next library -/

/-- `getxattr` and `setxattr` of the next library, with the states `ρ` of the real file
system. -/
structure Next (ρ : Type) where
  getxattr : ρ → Target → Bytes → Nat → Except Errno (Nat × Bytes)
  setxattr : ρ → Target → Bytes → Bytes → UInt32 → ρ × Except Errno Unit

/-- An intercepted get with its real file system. -/
def Next.get {ρ : Type} (next : Next ρ) (p : Preload) (g : GetCall) (db : Db) (real : ρ) :
    Except Errno (Nat × Bytes) :=
  p.getxattr (next.getxattr real g.target g.name g.size) g db

/-- An intercepted set: the store and the real file system behind it, and the result. -/
def Next.set {ρ : Type} (next : Next ρ) (c : SetCall) (db : Db) (real : ρ) :
    Db × ρ × Except Errno Unit :=
  match c.run db with
  | (db, .captured) => (db, real, .ok ())
  | (db, .stored) => (db, real, .ok ())
  | (db, .next) => (db, next.setxattr real c.target c.name c.value c.flags)

/-! ## Stored values -/

/-- The attribute `name` of the file `st` has a value in the store. -/
structure Stored (db : Db) (st : Stat) (name value : Bytes) : Prop where
  handled : handleCap name
  legal : slash ∉ metadataName st name
  file : db (metadataName st name) = some value

/-- Every get of the attribute with a buffer that holds the value returns it. -/
def Readable {ρ : Type} (next : Next ρ) (p : Preload) (db : Db) (real : ρ) (st : Stat)
    (name value : Bytes) : Prop :=
  ∀ g : GetCall, g.kernel.statOf g.target = some st → g.name = name → g.kernel.refused = false →
    value.length ≤ g.size → next.get p g db real = .ok (value.length, value)

/-- The write of the call takes less than the value, or fails. -/
def SetCall.Short (c : SetCall) : Prop := ∀ n ∈ c.kernel.written, n < c.value.length

/-- The bytes that the write of the call takes. -/
def SetCall.taken (c : SetCall) : Bytes := c.value.take (c.kernel.written.getD 0)

/-- The call does not open the file of a stored value, or writes what stands there. -/
def SetCall.Keeps (c : SetCall) (old : Bytes) : Prop :=
  c.kernel.refused ∨ c.flags &&& xattrCreate ≠ 0 ∨
    if c.replaces then c.taken <+: old else c.taken = old

section Store

variable {ρ : Type} {next : Next ρ} {p : Preload} {db : Db} {real : ρ} {st : Stat}
  {name old : Bytes}

theorem run_of_read_none {g : GetCall} (hname : handleCap g.name)
    (hst : g.kernel.statOf g.target = some st)
    (hread : readxattr g.kernel db st g.name g.size = none) : g.run db = .next := by
  rw [GetCall.run, not_handleComponent hname, hname, hst]
  simp [hread]

/-- A failure of the store is answered by the next library. -/
theorem get_of_read_none {g : GetCall} (hname : handleCap g.name)
    (hst : g.kernel.statOf g.target = some st)
    (hread : readxattr g.kernel db st g.name g.size = none) :
    next.get p g db real = next.getxattr real g.target g.name g.size := by
  rw [Next.get, Preload.getxattr, run_of_read_none hname hst hread]

theorem readxattr_of_small {k : Kernel} {size : Nat} (h : Stored db st name old) (hsize : size ≠ 0)
    (hsmall : size < old.length) : readxattr k db st name size = none := by
  unfold readxattr
  rw [h.file]
  cases openFile k db (metadataName st name) {} with
  | none => rfl
  | some db' => simp [hsize, hsmall]

theorem set_of_failed {c : SetCall} {db' : Db} (hname : handleCap c.name)
    (hst : c.kernel.statOf c.target = some st)
    (hwrite : writexattr c.kernel db st c.name c.value c.flags = (db', false)) :
    next.set c db real = (db', next.setxattr real c.target c.name c.value c.flags) := by
  have hrun : c.run db = (db', .next) := by
    rw [SetCall.run, not_handleComponent hname, hname, hst]
    simp [hwrite]
  rw [Next.set, hrun]

/-- `XATTR_CREATE` of a stored attribute fails in `open` and leaves the store as it is. -/
theorem writexattr_create {k : Kernel} {value : Bytes} {flags : UInt32} (h : Stored db st name old)
    (hflags : flags &&& xattrCreate ≠ 0) :
    writexattr k db st name value flags = (db, false) := by
  have hopen : openFile k db (metadataName st name) { creat := true, excl := true } = none := by
    unfold openFile
    rw [h.file]
    split <;> simp
  rw [writexattr, if_pos hflags, hopen]

theorem openFile_stored {k : Kernel} (h : Stored db st name old) {flags : OpenFlags}
    (hexcl : flags.excl = false) :
    openFile k db (metadataName st name) flags =
      if k.refused then none
      else some (Function.update db (metadataName st name)
        (some (if flags.trunc then [] else old))) := by
  unfold openFile
  rw [h.file]
  by_cases hrefused : k.refused
  · simp [hrefused]
  · have hkeep : Function.update db (metadataName st name) (some old) = db := by
      rw [← h.file, Function.update_eq_self]
    cases flags.trunc <;> simp [hrefused, h.legal, hexcl, hkeep]

/-- A write that does not take the whole value leaves what it took, and behind it the rest of
the old value when the call replaces. -/
theorem writexattr_short {c : SetCall} (hshort : c.Short) (h : Stored db st c.name old)
    (hcreate : c.flags &&& xattrCreate = 0) :
    writexattr c.kernel db st c.name c.value c.flags =
      (if c.kernel.refused then db
        else Function.update db (metadataName st c.name)
          (some (c.taken ++ (if c.replaces then old else []).drop c.taken.length)), false) := by
  have hreplaces : c.replaces = decide (c.flags &&& xattrReplace ≠ 0) := by
    simp [SetCall.replaces, hcreate]
  have hopen : ∀ mode : OpenFlags, mode.excl = false → mode.trunc = !c.replaces →
      openFile c.kernel db (metadataName st c.name) mode =
        if c.kernel.refused then none
        else some (Function.update db (metadataName st c.name)
          (some (if c.replaces then old else []))) := by
    intro mode hexcl htrunc
    rw [openFile_stored h hexcl, htrunc]
    cases c.replaces <;> rfl
  have hmode : openFile c.kernel db (metadataName st c.name)
      (if c.flags &&& xattrCreate ≠ 0 then { creat := true, excl := true }
        else if c.flags &&& xattrReplace ≠ 0 then { creat := true }
        else { creat := true, trunc := true }) =
        if c.kernel.refused then none
        else some (Function.update db (metadataName st c.name)
          (some (if c.replaces then old else []))) := by
    rw [if_neg (not_not.mpr hcreate)]
    by_cases hreplace : c.flags &&& xattrReplace ≠ 0
    · rw [if_pos hreplace]
      exact hopen _ rfl (by simp [hreplaces, hreplace])
    · rw [if_neg hreplace]
      exact hopen _ rfl (by simp [hreplaces, not_not.mp hreplace])
  unfold writexattr
  dsimp only
  rw [hmode]
  by_cases hrefused : c.kernel.refused
  · simp [hrefused]
  · cases hwritten : c.kernel.written with
    | none => simp [hrefused, SetCall.taken, hwritten]
    | some n =>
      have hlt : n < c.value.length := hshort n hwritten
      have hmin : min n c.value.length ≠ c.value.length := by omega
      simp [hrefused, SetCall.taken, hwritten, overwrite_update, hmin]

/-- The file of a stored value still has a value, which is the old one if and only if nothing
else was written over it. -/
theorem exists_file {c : SetCall} (hshort : c.Short) (h : Stored db st c.name old) :
    ∃ db' content, writexattr c.kernel db st c.name c.value c.flags = (db', false) ∧
      db' (metadataName st c.name) = some content ∧ (content = old ↔ c.Keeps old) := by
  by_cases hcreate : c.flags &&& xattrCreate = 0
  · have hwrite := writexattr_short hshort h hcreate
    by_cases hrefused : c.kernel.refused
    · rw [if_pos hrefused] at hwrite
      exact ⟨db, old, hwrite, h.file, iff_of_true rfl (.inl hrefused)⟩
    · rw [if_neg hrefused] at hwrite
      refine ⟨_, _, hwrite, Function.update_self _ _ _, ?_⟩
      have hkeeps : c.Keeps old ↔ if c.replaces then c.taken <+: old else c.taken = old := by
        simp [SetCall.Keeps, hrefused, hcreate]
      rw [hkeeps]
      cases c.replaces with
      | true => exact List.prefix_iff_eq_append.symm
      | false => simp
  · exact ⟨db, old, writexattr_create h hcreate, h.file, iff_of_true rfl (.inr (.inl hcreate))⟩

theorem readable_iff {content : Bytes} (hname : handleCap name)
    (hlegal : slash ∉ metadataName st name) (hfile : db (metadataName st name) = some content) :
    Readable next p db real st name old ↔ content = old := by
  have hserved : ∀ g : GetCall, g.kernel.statOf g.target = some st → g.name = name →
      g.kernel.refused = false → content.length ≤ g.size →
      next.get p g db real = .ok (content.length, content) := by
    rintro g hst rfl hopen hsize
    rw [Next.get, Preload.getxattr, get_served hname hst hopen hlegal hfile hsize]
  constructor
  · intro h
    let kernel : Kernel :=
      { stat := fun _ => some st, lstat := fun _ => some st, fstat := fun _ => some st,
        refused := false, written := none }
    have hold := h ⟨kernel, .path [], name, content.length + old.length⟩ rfl rfl rfl
      (Nat.le_add_left _ _)
    have hnew := hserved ⟨kernel, .path [], name, content.length + old.length⟩ rfl rfl rfl
      (Nat.le_add_right _ _)
    rw [hnew] at hold
    exact (Prod.mk.inj (Except.ok.inj hold)).2
  · rintro rfl
    exact hserved

theorem get_small {g : GetCall} (h : Stored db st g.name old)
    (hst : g.kernel.statOf g.target = some st) (hsize : g.size ≠ 0) (hsmall : g.size < old.length) :
    next.get p g db real = next.getxattr real g.target g.name g.size :=
  get_of_read_none h.handled hst (readxattr_of_small h hsize hsmall)

theorem set_create {c : SetCall} (h : Stored db st c.name old)
    (hst : c.kernel.statOf c.target = some st) (hflags : c.flags &&& xattrCreate ≠ 0) :
    next.set c db real = (db, next.setxattr real c.target c.name c.value c.flags) :=
  set_of_failed h.handled hst (writexattr_create h hflags)

theorem readable_set_iff {c : SetCall} (h : Stored db st c.name old)
    (hst : c.kernel.statOf c.target = some st) (hshort : c.Short) :
    Readable next p (next.set c db real).1 (next.set c db real).2.1 st c.name old ↔
      c.Keeps old := by
  obtain ⟨db', content, hwrite, hfile, hkeeps⟩ := exists_file hshort h
  rw [set_of_failed h.handled hst hwrite, ← hkeeps]
  exact readable_iff h.handled h.legal hfile

/-- **Errors of the store.** For a value in the store: a get with a buffer that is too small
fails with `ERANGE`, and a set with `XATTR_CREATE` fails with `EEXIST` and changes nothing, if
and only if the next library does so; and a set whose write fails or is short leaves the
value readable if and only if it writes nothing else over it. -/
theorem store_errors_iff (next : Next ρ) (p : Preload) (real : ρ) (h : Stored db st name old) :
    (∀ g : GetCall, g.kernel.statOf g.target = some st → g.name = name → g.size ≠ 0 →
      g.size < old.length →
      (next.get p g db real = .error .ERANGE ↔
        next.getxattr real g.target g.name g.size = .error .ERANGE)) ∧
    (∀ c : SetCall, c.kernel.statOf c.target = some st → c.name = name →
      c.flags &&& xattrCreate ≠ 0 →
      (next.set c db real = (db, real, .error .EEXIST) ↔
        next.setxattr real c.target c.name c.value c.flags = (real, .error .EEXIST))) ∧
    (∀ c : SetCall, c.kernel.statOf c.target = some st → c.name = name → c.Short →
      (Readable next p (next.set c db real).1 (next.set c db real).2.1 st name old ↔
        c.Keeps old)) := by
  refine ⟨?_, ?_, ?_⟩
  · rintro g hst rfl hsize hsmall
    rw [get_small h hst hsize hsmall]
  · rintro c hst rfl hflags
    rw [set_create h hst hflags]
    simp
  · rintro c hst rfl hshort
    exact readable_set_iff h hst hshort

end Store

/-- A real file that may have the attribute in question. -/
def realFile : Next (Option Bytes) where
  getxattr real _ _ size :=
    match real with
    | none => .error .ENODATA
    | some value =>
      if size = 0 then .ok (value.length, [])
      else if size < value.length then .error .ERANGE
      else .ok (value.length, value)
  setxattr real _ _ value flags :=
    if flags &&& xattrCreate ≠ 0 ∧ real.isSome then (real, .error .EEXIST)
    else if flags &&& xattrReplace ≠ 0 ∧ real.isNone then (real, .error .ENODATA)
    else (some value, .ok ())

/-- A process without a manifest. -/
def noManifest : Preload := ⟨bisection, [], [], fun _ => none⟩

/-- The file of `oneFile` has a stored capability. -/
def storedDb : Db :=
  Function.update (fun _ => none) (metadataName ⟨0x801, 12⟩ (ascii "security.capability"))
    (some (ascii "ab"))

theorem stored_storedDb :
    Stored storedDb ⟨0x801, 12⟩ (ascii "security.capability") (ascii "ab") :=
  ⟨by decide, by decide, Function.update_self _ _ _⟩

/-- A write of which the kernel takes a part. -/
def writePart (value : Bytes) (flags : UInt32) (n : Nat) : SetCall :=
  { setCapability value flags with kernel := oneFile n }

/-- A short write with `XATTR_REPLACE` of a value that begins with the old one. -/
theorem store_errors_iff_replaced :
    Readable realFile noManifest
      (realFile.set (writePart (ascii "abc") xattrReplace 2) storedDb none).1
      (realFile.set (writePart (ascii "abc") xattrReplace 2) storedDb none).2.1 ⟨0x801, 12⟩
      (ascii "security.capability") (ascii "ab") := by
  have hshort : (writePart (ascii "abc") xattrReplace 2).Short := by
    rintro n ⟨⟩
    decide
  have hkeeps : (writePart (ascii "abc") xattrReplace 2).Keeps (ascii "ab") :=
    .inr (.inr (show _ from ⟨[], rfl⟩))
  exact ((store_errors_iff realFile noManifest none stored_storedDb).2.2 _ rfl rfl hshort).mpr
    hkeeps

/-- Where the real file lacks the attribute, a buffer that is too small gives `ENODATA`, and
`XATTR_CREATE` succeeds and sets it there; and a write that fails leaves an empty value. -/
theorem store_errors_dropped :
    Stored storedDb ⟨0x801, 12⟩ (ascii "security.capability") (ascii "ab") ∧
    (¬ ∀ g : GetCall, g.kernel.statOf g.target = some ⟨0x801, 12⟩ →
      g.name = ascii "security.capability" → g.size ≠ 0 → g.size < (ascii "ab").length →
      realFile.get noManifest g storedDb none = .error .ERANGE) ∧
    (¬ ∀ c : SetCall, c.kernel.statOf c.target = some ⟨0x801, 12⟩ →
      c.name = ascii "security.capability" → c.flags &&& xattrCreate ≠ 0 →
      realFile.set c storedDb none = (storedDb, none, .error .EEXIST)) ∧
    (¬ ∀ c : SetCall, c.kernel.statOf c.target = some ⟨0x801, 12⟩ →
      c.name = ascii "security.capability" → c.Short →
      Readable realFile noManifest (realFile.set c storedDb none).1
        (realFile.set c storedDb none).2.1 ⟨0x801, 12⟩ (ascii "security.capability")
          (ascii "ab")) := by
  refine ⟨stored_storedDb, ?_, ?_, ?_⟩
  · intro h
    have hget := h (getCapability 1) rfl rfl (by decide) (by decide)
    rw [get_small stored_storedDb rfl (by decide) (by decide)] at hget
    simp [realFile] at hget
  · intro h
    have hset := h (setCapability (ascii "x") xattrCreate) rfl rfl (by decide)
    rw [set_create stored_storedDb rfl (by decide)] at hset
    have hreal := (Prod.mk.inj hset).2
    -- the real file has no such attribute, so creating it there succeeds
    have hcreate : (setCapability (ascii "x") xattrCreate).flags &&& xattrReplace = 0 := by decide
    simp [realFile, hcreate] at hreal
  · intro h
    have hshort : (writePart (ascii "x") 0 0).Short := by
      rintro n ⟨⟩
      decide
    have hkeeps := (readable_set_iff stored_storedDb rfl hshort).mp (h _ rfl rfl hshort)
    rcases hkeeps with hkeeps | hkeeps | hkeeps
    · cases hkeeps
    · exact hkeeps rfl
    · exact absurd (show _ from hkeeps) (by decide)

end XfceLinux.Fakecap
