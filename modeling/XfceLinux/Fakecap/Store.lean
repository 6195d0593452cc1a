import XfceLinux.Lib.Lines
import XfceLinux.Lib.Text

/-!
# The attribute store of `fakecap.c`

An intercepted `setxattr` of a handled name writes a file in the directory `FAKECAP_DB`,
named by the device, the inode and the attribute, and `getxattr` reads it back. The store
is the content of that directory, which holds regular files only. A call brings with it
what the kernel answers to it (`Kernel`).
-/

namespace XfceLinux.Fakecap

open Lib Lib.Text

/-! ## Names -/

def dash : UInt8 := 0x2D

def slash : UInt8 := 0x2F

def xattrCreate : UInt32 := 1

def xattrReplace : UInt32 := 2

def handleCap (name : Bytes) : Bool :=
  name = ascii "security.capability" || (ascii "user.validatefs.").isPrefixOf name

def handleComponent (name : Bytes) : Bool :=
  name = ascii "user.component" || name = ascii "user.update-interval"

/-- The fields of `struct stat` that name a file. -/
structure Stat where
  dev : UInt64
  ino : UInt64
deriving DecidableEq

/-- `major`: bits 8 to 19 and 44 to 63 of the device. -/
def major (dev : UInt64) : Nat := dev.toNat / 2 ^ 8 % 2 ^ 12 + dev.toNat / 2 ^ 44 % 2 ^ 20 * 2 ^ 12

/-- `minor`: bits 0 to 7 and 20 to 43 of the device. -/
def minor (dev : UInt64) : Nat := dev.toNat % 2 ^ 8 + dev.toNat / 2 ^ 20 % 2 ^ 24 * 2 ^ 8

/-- `%u` and `%lu` -/
def decimal (n : Nat) : Bytes := (Nat.toDigits 10 n).map fun c => UInt8.ofNat c.toNat

/-- The file name `%u-%u-%lu-%s` of `open_metadata`. -/
def metadataName (st : Stat) (name : Bytes) : Bytes :=
  decimal (major st.dev) ++ dash :: decimal (minor st.dev) ++
    dash :: decimal st.ino.toNat ++ dash :: name

/-! ## Files -/

/-- The files of `FAKECAP_DB`, by name. -/
abbrev Db := Bytes → Option Bytes

structure OpenFlags where
  creat : Bool := false
  excl : Bool := false
  trunc : Bool := false

/-- What the kernel answers during an intercepted call. -/
structure Kernel where
  stat : Bytes → Option Stat
  lstat : Bytes → Option Stat
  fstat : Nat → Option Stat
  /-- `open` fails for a reason of its own. -/
  refused : Bool
  /-- The number of bytes that `write` takes, or an error. -/
  written : Option Nat

/-- `open` of a file in `FAKECAP_DB`, as it changes the directory. A name with a slash leads
into a directory that is not there. -/
def openFile (k : Kernel) (db : Db) (file : Bytes) (flags : OpenFlags) : Option Db :=
  if k.refused ∨ slash ∈ file then none
  else
    match db file with
    | some _ =>
      if flags.creat ∧ flags.excl then none
      else some (if flags.trunc then Function.update db file (some []) else db)
    | none => if flags.creat then some (Function.update db file (some [])) else none

/-- `write` at the start of an open file: the bytes taken replace those of the file. -/
def overwrite (db : Db) (file taken : Bytes) : Db :=
  Function.update db file ((db file).map fun old => taken ++ old.drop taken.length)

/-- `writexattr`: the store behind it, and whether it succeeds. -/
def writexattr (k : Kernel) (db : Db) (st : Stat) (name value : Bytes) (flags : UInt32) :
    Db × Bool :=
  let mode : OpenFlags :=
    if flags &&& xattrCreate ≠ 0 then { creat := true, excl := true }
    else if flags &&& xattrReplace ≠ 0 then { creat := true }
    else { creat := true, trunc := true }
  let file := metadataName st name
  match openFile k db file mode with
  | none => (db, false)
  | some db =>
    match k.written with
    | none => (db, false)
    | some n => (overwrite db file (value.take n), min n value.length == value.length)

/-- `readxattr`: the result and the bytes put into the buffer, or a failure. -/
def readxattr (k : Kernel) (db : Db) (st : Stat) (name : Bytes) (size : Nat) :
    Option (Nat × Bytes) :=
  match openFile k db (metadataName st name) {}, db (metadataName st name) with
  | some _, some content =>
    if size = 0 then some (content.length, [])
    else if content.length > size then none
    else some (content.length, content)
  | _, _ => none

/-! ## The intercepted calls -/

inductive Target where
  | path (p : Bytes)
  | link (p : Bytes)
  | fd (fd : Nat)

def Kernel.statOf (k : Kernel) : Target → Option Stat
  | .path p => k.stat p
  | .link p => k.lstat p
  | .fd fd => k.fstat fd

/-- How an intercepted set ends: in `manifest_capture`, in the next library, or in the
store. -/
inductive SetReply where
  | captured
  | next
  | stored
deriving DecidableEq

/-- A call of `setxattr`, `lsetxattr` or `fsetxattr`. -/
structure SetCall where
  kernel : Kernel
  target : Target
  name : Bytes
  value : Bytes
  flags : UInt32

/-- The body that the three functions share. -/
def SetCall.run (c : SetCall) (db : Db) : Db × SetReply :=
  if handleComponent c.name then (db, .captured)
  else if !handleCap c.name then (db, .next)
  else
    match c.kernel.statOf c.target with
    | none => (db, .next)
    | some st =>
      let (db, ok) := writexattr c.kernel db st c.name c.value c.flags
      (db, if ok then .stored else .next)

def setxattr (k : Kernel) (db : Db) (path name value : Bytes) (flags : UInt32) : Db × SetReply :=
  SetCall.run ⟨k, .path path, name, value, flags⟩ db

def lsetxattr (k : Kernel) (db : Db) (path name value : Bytes) (flags : UInt32) : Db × SetReply :=
  SetCall.run ⟨k, .link path, name, value, flags⟩ db

def fsetxattr (k : Kernel) (db : Db) (fd : Nat) (name value : Bytes) (flags : UInt32) :
    Db × SetReply :=
  SetCall.run ⟨k, .fd fd, name, value, flags⟩ db

/-- How an intercepted get ends. -/
inductive GetReply where
  | manifest
  | next
  | served (result : Nat) (buffer : Bytes)
deriving DecidableEq

/-- A call of `getxattr`, `lgetxattr` or `fgetxattr`. -/
structure GetCall where
  kernel : Kernel
  target : Target
  name : Bytes
  size : Nat

/-- The body that the three functions share. -/
def GetCall.run (g : GetCall) (db : Db) : GetReply :=
  if handleComponent g.name then .manifest
  else if !handleCap g.name then .next
  else
    match g.kernel.statOf g.target with
    | none => .next
    | some st =>
      match readxattr g.kernel db st g.name g.size with
      | none => .next
      | some (result, buffer) => .served result buffer

def getxattr (k : Kernel) (db : Db) (path name : Bytes) (size : Nat) : GetReply :=
  GetCall.run ⟨k, .path path, name, size⟩ db

def lgetxattr (k : Kernel) (db : Db) (path name : Bytes) (size : Nat) : GetReply :=
  GetCall.run ⟨k, .link path, name, size⟩ db

def fgetxattr (k : Kernel) (db : Db) (fd : Nat) (name : Bytes) (size : Nat) : GetReply :=
  GetCall.run ⟨k, .fd fd, name, size⟩ db

/-! ## File names -/

theorem toNat_lt_of_isDigit {c : Char} (h : c.isDigit) : 48 ≤ c.toNat ∧ c.toNat ≤ 57 := by
  simp only [Char.isDigit, Bool.and_eq_true, decide_eq_true_eq, UInt32.le_iff_toNat_le] at h
  exact h

theorem map_decimal (n : Nat) :
    ((decimal n).map fun b => Char.ofNat b.toNat) = Nat.toDigits 10 n := by
  rw [decimal, List.map_map]
  refine (List.map_congr_left fun c hc => ?_).trans (List.map_id _)
  have := toNat_lt_of_isDigit (Nat.isDigit_of_mem_toDigits (by omega) le_rfl hc)
  have hlt : (UInt8.ofNat c.toNat).toNat = c.toNat := by
    rw [UInt8.toNat_ofNat', Nat.mod_eq_of_lt (by omega)]
  simp [hlt]

theorem decimal_inj {m n : Nat} (h : decimal m = decimal n) : m = n := by
  have hdigits := congrArg (List.map fun b => Char.ofNat b.toNat) h
  rw [map_decimal, map_decimal] at hdigits
  rw [← Nat.ofDigitChars_ten_toDigits (n := m), hdigits, Nat.ofDigitChars_ten_toDigits]

theorem dash_notMem_decimal (n : Nat) : dash ∉ decimal n := by
  intro h
  obtain ⟨c, hc, heq⟩ := List.mem_map.mp h
  have := toNat_lt_of_isDigit (Nat.isDigit_of_mem_toDigits (by omega) le_rfl hc)
  have hval : c.toNat = 0x2D := by
    rw [← Nat.mod_eq_of_lt (show c.toNat < 2 ^ 8 by omega), ← UInt8.toNat_ofNat', heq]
    rfl
  omega

theorem dev_inj {d e : UInt64} (hmajor : major d = major e) (hminor : minor d = minor e) :
    d = e := by
  have hd := d.toNat_lt
  have he := e.toNat_lt
  unfold major at hmajor
  unfold minor at hminor
  apply UInt64.toNat_inj.mp
  omega

/-- **File names.** The name of a metadata file determines device, inode and attribute. -/
theorem metadataName_inj {st st' : Stat} {name name' : Bytes}
    (h : metadataName st name = metadataName st' name') : st = st' ∧ name = name' := by
  have hdash := dash_notMem_decimal
  simp only [metadataName, List.append_assoc, List.cons_append] at h
  obtain ⟨hmajor, h₁⟩ := Lines.append_cons_inj (hdash _) (hdash _) h
  obtain ⟨hminor, h₂⟩ := Lines.append_cons_inj (hdash _) (hdash _) h₁
  obtain ⟨hino, hname⟩ := Lines.append_cons_inj (hdash _) (hdash _) h₂
  have hdev := dev_inj (decimal_inj hmajor) (decimal_inj hminor)
  have hino := UInt64.toNat_inj.mp (decimal_inj hino)
  cases st
  cases st'
  exact ⟨Stat.mk.injEq .. ▸ ⟨hdev, hino⟩, hname⟩

/-! ## What a call changes -/

theorem openFile_eq {k : Kernel} {db db' : Db} {file : Bytes} {flags : OpenFlags}
    (h : openFile k db file flags = some db') :
    db' = Function.update db file (some (if flags.trunc then [] else (db file).getD [])) ∧
      (flags.creat ∧ flags.excl → db file = none) ∧ slash ∉ file := by
  unfold openFile at h
  split at h
  · cases h
  rename_i hslash
  rw [not_or] at hslash
  split at h
  · rename_i old hold
    split at h
    · cases h
    rename_i hnew
    cases h
    refine ⟨?_, fun hexcl => absurd hexcl hnew, hslash.2⟩
    split
    · rfl
    · rw [hold, Option.getD_some, ← hold, Function.update_eq_self]
  · rename_i hnone
    split at h
    · cases h
      refine ⟨?_, fun _ => hnone, hslash.2⟩
      rw [hnone]
      split <;> rfl
    · cases h

theorem overwrite_update (db : Db) (file content taken : Bytes) :
    overwrite (Function.update db file (some content)) file taken =
      Function.update db file (some (taken ++ content.drop taken.length)) := by
  simp [overwrite]

/-- A set writes to the file of its own device, inode and name only. -/
theorem run_frame (c : SetCall) (db : Db) {file : Bytes}
    (h : ∀ st ∈ c.kernel.statOf c.target, metadataName st c.name ≠ file) :
    (c.run db).1 file = db file := by
  unfold SetCall.run
  split
  · rfl
  split
  · rfl
  split
  · rfl
  rename_i st hst
  have hne := (h st hst).symm
  simp only [writexattr]
  split
  · rfl
  · rename_i db' hdb
    obtain ⟨rfl, -⟩ := openFile_eq hdb
    split
    · exact Function.update_of_ne hne _ _
    · rw [overwrite_update]
      exact Function.update_of_ne hne _ _

/-! ## Histories -/

/-- The store behind a sequence of sets. -/
def runSets (cs : List SetCall) (db : Db) : Db := cs.foldl (fun db c => (c.run db).1) db

/-- The sets of an attribute that the store accepted. -/
def acceptedSets (st : Stat) (name : Bytes) : List SetCall → Db → List SetCall
  | [], _ => []
  | c :: cs, db =>
    let rest := acceptedSets st name cs (c.run db).1
    if (c.run db).2 = .stored ∧ c.kernel.statOf c.target = some st ∧ c.name = name then c :: rest
    else rest

/-- `open` without `O_TRUNC`: the branch of `XATTR_REPLACE`. -/
def SetCall.replaces (c : SetCall) : Bool :=
  c.flags &&& xattrCreate = 0 && c.flags &&& xattrReplace ≠ 0

/-- The write of the call, if it comes to one, takes the whole value. -/
def SetCall.Complete (c : SetCall) : Prop := c.kernel.written = some c.value.length

/-- The sets from the last one that does not replace. -/
def sinceTruncation (cs : List SetCall) : List SetCall :=
  cs.foldl (fun since c => if c.replaces then since ++ [c] else [c]) []

/-- The content that accepted sets leave in the file. -/
def storedValue (cs : List SetCall) : Bytes :=
  cs.foldl (fun old c => if c.replaces then c.value ++ old.drop c.value.length else c.value) []

theorem length_storedValue_le_iff (cs : List SetCall) (n : Nat) :
    (storedValue cs).length ≤ n ↔ ∀ c ∈ sinceTruncation cs, c.value.length ≤ n := by
  induction cs using List.reverseRecOn with
  | nil => simp [storedValue, sinceTruncation]
  | append_singleton cs c ih =>
    have hvalue : storedValue (cs ++ [c]) =
        if c.replaces then c.value ++ (storedValue cs).drop c.value.length else c.value := by
      simp [storedValue]
    have hsince : sinceTruncation (cs ++ [c]) =
        if c.replaces then sinceTruncation cs ++ [c] else [c] := by
      simp [sinceTruncation]
    rw [hvalue, hsince]
    split
    · rw [List.forall_mem_append, List.forall_mem_singleton, ← ih, List.length_append,
        List.length_drop]
      omega
    · simp

theorem run_cases {c : SetCall} (hc : c.Complete) (db : Db) :
    ((c.run db).2 ≠ .stored ∧ (c.run db).1 = db) ∨
      ∃ st, c.kernel.statOf c.target = some st ∧ handleCap c.name ∧
        slash ∉ metadataName st c.name ∧ (c.run db).2 = .stored ∧
        (c.run db).1 = Function.update db (metadataName st c.name)
          (some (if c.replaces then
            c.value ++ ((db (metadataName st c.name)).getD []).drop c.value.length
          else c.value)) := by
  unfold SetCall.run
  split
  · exact .inl ⟨by simp, rfl⟩
  split
  · exact .inl ⟨by simp, rfl⟩
  rename_i hcap
  split
  · exact .inl ⟨by simp, rfl⟩
  rename_i st hst
  simp only [writexattr, show c.kernel.written = some c.value.length from hc]
  split
  · exact .inl ⟨by simp, rfl⟩
  rename_i db' hdb
  obtain ⟨rfl, hexcl, hslash⟩ := openFile_eq hdb
  refine .inr ⟨st, hst, by simpa using hcap, hslash, by simp, ?_⟩
  rw [List.take_length, overwrite_update]
  unfold SetCall.replaces
  by_cases hcreate : c.flags &&& xattrCreate = 0
  · by_cases hreplace : c.flags &&& xattrReplace = 0
    · simp [hcreate, hreplace]
    · simp [hcreate, hreplace]
  · have hnone : db (metadataName st c.name) = none := by
      refine hexcl ?_
      simp [hcreate]
    simp [hcreate, hnone]

theorem runSets_append (cs : List SetCall) (c : SetCall) (db : Db) :
    runSets (cs ++ [c]) db = (c.run (runSets cs db)).1 := by
  simp [runSets]

theorem acceptedSets_append (st : Stat) (name : Bytes) (cs : List SetCall) (c : SetCall) (db : Db) :
    acceptedSets st name (cs ++ [c]) db =
      acceptedSets st name cs db ++
        if (c.run (runSets cs db)).2 = .stored ∧ c.kernel.statOf c.target = some st ∧
          c.name = name then [c] else [] := by
  induction cs generalizing db with
  | nil => rfl
  | cons d cs ih =>
    simp only [List.cons_append, acceptedSets, ih]
    split <;> rfl

/-- The file of an attribute after a history from the empty store. -/
theorem runSets_eq {cs : List SetCall} (hcs : ∀ c ∈ cs, c.Complete) (st : Stat) (name : Bytes) :
    runSets cs (fun _ => none) (metadataName st name) =
      if acceptedSets st name cs (fun _ => none) = [] then none
      else some (storedValue (acceptedSets st name cs fun _ => none)) := by
  induction cs using List.reverseRecOn with
  | nil => rfl
  | append_singleton cs c ih =>
    have ih := ih fun d hd => hcs d (List.mem_append_left _ hd)
    rw [runSets_append, acceptedSets_append]
    generalize runSets cs (fun _ => none) = db at ih
    generalize acceptedSets st name cs (fun _ => none) = acc at ih
    rcases run_cases (hcs c (by simp)) db with
      ⟨hnot, hsame⟩ | ⟨st', hst, -, -, hstored, hdb⟩
    · simpa [hsame, hnot] using ih
    · rw [hdb, hstored, hst]
      by_cases hkey : st' = st ∧ c.name = name
      · obtain ⟨rfl, rfl⟩ := hkey
        have hold : (db (metadataName st' c.name)).getD [] = storedValue acc := by
          rw [ih]
          split
          · rename_i hnil
            rw [hnil]
            rfl
          · rfl
        rw [Function.update_self, hold]
        simp [storedValue]
      · have hne : metadataName st name ≠ metadataName st' c.name := by
          intro h
          obtain ⟨h₁, h₂⟩ := metadataName_inj h
          exact hkey ⟨h₁.symm, h₂.symm⟩
        rw [Function.update_of_ne hne, ih]
        simp [hkey]

theorem mem_acceptedSets {cs : List SetCall} (hcs : ∀ c ∈ cs, c.Complete) {st : Stat}
    {name : Bytes} {db : Db} {c : SetCall} (hc : c ∈ acceptedSets st name cs db) :
    handleCap name ∧ slash ∉ metadataName st name := by
  induction cs generalizing db with
  | nil => cases hc
  | cons d cs ih =>
    have htail := @ih (fun e he => hcs e (List.mem_cons_of_mem _ he)) (d.run db).1
    rw [acceptedSets] at hc
    split at hc
    · rename_i hd
      obtain ⟨hstored, hst, rfl⟩ := hd
      rcases run_cases (hcs d List.mem_cons_self) db with
        ⟨hnot, -⟩ | ⟨st', hst', hcap, hslash, -⟩
      · exact absurd hstored hnot
      · rw [hst] at hst'
        cases hst'
        exact ⟨hcap, hslash⟩
    · exact htail hc

theorem not_handleComponent {name : Bytes} (h : handleCap name) : handleComponent name = false := by
  by_contra hc
  simp only [handleComponent, Bool.not_eq_false, Bool.or_eq_true, decide_eq_true_eq] at hc
  rcases hc with rfl | rfl <;> revert h <;> decide

theorem readxattr_congr {k : Kernel} {db db' : Db} {st : Stat} {name : Bytes} {size : Nat}
    (h : db (metadataName st name) = db' (metadataName st name)) :
    readxattr k db st name size = readxattr k db' st name size := by
  unfold readxattr openFile
  rw [h]
  by_cases hopen : k.refused ∨ slash ∈ metadataName st name
  · simp only [if_pos hopen]
  · simp only [if_neg hopen]
    cases db' (metadataName st name) <;> rfl

theorem get_served {g : GetCall} {db : Db} {st : Stat} {content : Bytes}
    (hname : handleCap g.name) (hst : g.kernel.statOf g.target = some st)
    (hopen : g.kernel.refused = false) (hslash : slash ∉ metadataName st g.name)
    (hdb : db (metadataName st g.name) = some content) (hsize : content.length ≤ g.size) :
    g.run db = .served content.length content := by
  have hread : readxattr g.kernel db st g.name g.size = some (content.length, content) := by
    have hfile : openFile g.kernel db (metadataName st g.name) {} = some db := by
      simp [openFile, hopen, hslash, hdb]
    rw [readxattr, hfile, hdb]
    dsimp only
    split
    · rename_i hzero
      have hnil : content = [] := List.length_eq_zero_iff.mp (by omega)
      rw [hnil]
    · rw [if_neg (by omega)]
  rw [GetCall.run, not_handleComponent hname, hname, hst]
  simp [hread]

/-- **The attribute store.** Behind complete sets, a get with a buffer that holds the stored
value returns the value of the last accepted set, if and only if that set does not replace
or no value set since the last truncation is longer. And a set of one attribute changes
the result of no get of another. -/
theorem store_faithful_iff (cs : List SetCall) (hcs : ∀ c ∈ cs, c.Complete) (g : GetCall)
    (st : Stat) (hst : g.kernel.statOf g.target = some st) (hopen : g.kernel.refused = false)
    (before : List SetCall) (last : SetCall)
    (hacc : acceptedSets st g.name cs (fun _ => none) = before ++ [last])
    (hsize : ∀ content, runSets cs (fun _ => none) (metadataName st g.name) = some content →
      content.length ≤ g.size) :
    (g.run (runSets cs fun _ => none) = .served last.value.length last.value ↔
      (last.replaces → ∀ c ∈ sinceTruncation before, c.value.length ≤ last.value.length)) ∧
    ∀ (c : SetCall) (db : Db), ¬ (c.kernel.statOf c.target = some st ∧ c.name = g.name) →
      g.run (c.run db).1 = g.run db := by
  have hmem : last ∈ acceptedSets st g.name cs (fun _ => none) := by
    rw [hacc]
    exact List.mem_append_right _ (List.mem_singleton_self _)
  obtain ⟨hname, hslash⟩ := mem_acceptedSets hcs hmem
  have hdb := runSets_eq hcs st g.name
  rw [hacc, if_neg (by simp)] at hdb
  constructor
  · rw [get_served hname hst hopen hslash hdb (hsize _ hdb), ← length_storedValue_le_iff]
    simp only [GetReply.served.injEq, storedValue, List.foldl_append, List.foldl_cons,
      List.foldl_nil]
    change _ ↔ (last.replaces → (storedValue before).length ≤ last.value.length)
    have hdrop : ∀ n (old : Bytes), old.drop n = [] ↔ old.length ≤ n := fun n old =>
      List.drop_eq_nil_iff
    by_cases hr : last.replaces
    · rw [if_pos hr]
      constructor
      · rintro ⟨-, hv⟩ -
        exact (hdrop _ _).mp (List.append_right_eq_self.mp hv)
      · intro hle
        have hnil := (hdrop _ _).mpr (hle hr)
        unfold storedValue at hnil
        rw [hnil, List.append_nil]
        exact ⟨rfl, rfl⟩
    · simp [hr]
  · intro c db hkey
    have hfile : (c.run db).1 (metadataName st g.name) = db (metadataName st g.name) := by
      refine run_frame c db fun st' hst' h => hkey ?_
      obtain ⟨rfl, hn⟩ := metadataName_inj h
      exact ⟨hst', hn⟩
    simp only [GetCall.run, hst, readxattr_congr hfile]

/-- A kernel with one file, which takes whole values of the given length. -/
def oneFile (written : Nat) : Kernel where
  stat := fun _ => some ⟨0x801, 12⟩
  lstat := fun _ => some ⟨0x801, 12⟩
  fstat := fun _ => some ⟨0x801, 12⟩
  refused := false
  written := some written

def setCapability (value : Bytes) (flags : UInt32) : SetCall :=
  ⟨oneFile value.length, .path (ascii "/usr/bin/ping"), ascii "security.capability", value, flags⟩

def getCapability (size : Nat) : GetCall :=
  ⟨oneFile 0, .path (ascii "/usr/bin/ping"), ascii "security.capability", size⟩

theorem store_faithful_iff_replaced :
    (getCapability 3).run
        (runSets [setCapability (ascii "ab") 0, setCapability (ascii "xyz") xattrReplace]
          fun _ => none) =
      .served 3 (ascii "xyz") := by
  refine (store_faithful_iff
    [setCapability (ascii "ab") 0, setCapability (ascii "xyz") xattrReplace] ?_
    (getCapability 3) ⟨0x801, 12⟩ rfl rfl [setCapability (ascii "ab") 0]
    (setCapability (ascii "xyz") xattrReplace) ?_ ?_).1.mpr ?_
  · intro c hc
    simp only [List.mem_cons, List.not_mem_nil, or_false] at hc
    rcases hc with rfl | rfl <;> rfl
  · rfl
  · decide
  · decide

/-- `XATTR_REPLACE` leaves the tail of a longer value. -/
theorem replace_keeps_tail :
    ¬ ∀ (cs : List SetCall), (∀ c ∈ cs, c.Complete) → ∀ (g : GetCall) (st : Stat),
      g.kernel.statOf g.target = some st → g.kernel.refused = false →
      ∀ (before : List SetCall) (last : SetCall),
        acceptedSets st g.name cs (fun _ => none) = before ++ [last] →
        (∀ content, runSets cs (fun _ => none) (metadataName st g.name) = some content →
          content.length ≤ g.size) →
        g.run (runSets cs fun _ => none) = .served last.value.length last.value := by
  intro h
  have hx := h [setCapability (ascii "abc") 0, setCapability (ascii "x") xattrReplace] (by
      intro c hc
      simp only [List.mem_cons, List.not_mem_nil, or_false] at hc
      rcases hc with rfl | rfl <;> rfl)
    (getCapability 3) ⟨0x801, 12⟩ rfl rfl [setCapability (ascii "abc") 0]
    (setCapability (ascii "x") xattrReplace) rfl (by decide)
  revert hx
  decide

end XfceLinux.Fakecap
