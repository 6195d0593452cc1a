import XfceLinux.Fakecap.Readers
import XfceLinux.Lib.Dict

/-!
# The tool `fakecap-restore.c`

`main` replays a manifest in the order of its lines, so that the last line that leads to a
file decides its attributes.
-/

namespace XfceLinux.Fakecap

open Lib Lib.Text

variable {ι : Type*} [DecidableEq ι]

/-! ## The tool -/

abbrev Attrs (ι : Type*) := ι → Attr → Option Bytes

/-- The files under the root, and which attributes can be set. -/
structure Rootfs (ι : Type*) where
  /-- The file that a path leads to, when its last component is not followed. -/
  find : Bytes → Except Errno ι
  /-- The error of setting an attribute of a file. -/
  refuses : ι → Attr → Option Errno

def Rootfs.lsetxattr (fs : Rootfs ι) (attrs : Attrs ι) (path : Bytes) (a : Attr) (value : Bytes) :
    Except Errno (Attrs ι) :=
  match fs.find path with
  | .error e => .error e
  | .ok f =>
    match fs.refuses f a with
    | some e => .error e
    | none => .ok (Function.update attrs f (Function.update (attrs f) a (some value)))

/-- Only the file that a path leads to matters. -/
theorem Rootfs.lsetxattr_congr {fs : Rootfs ι} {p q : Bytes} (h : fs.find p = fs.find q)
    (attrs : Attrs ι) (a : Attr) (value : Bytes) :
    fs.lsetxattr attrs p a value = fs.lsetxattr attrs q a value := by
  rw [Rootfs.lsetxattr, Rootfs.lsetxattr, h]

/-- `lgetxattr` of the kernel -/
def Rootfs.lgetxattr (fs : Rootfs ι) (attrs : Attrs ι) (path : Bytes) (a : Attr) : Option Bytes :=
  match fs.find path with
  | .error _ => none
  | .ok f => attrs f a

/-- The variables of `main`, and the attributes on the files. -/
structure RestoreState (ι : Type*) where
  attrs : Attrs ι
  nSet : Nat := 0
  nSkip : Nat := 0
  nErr : Nat := 0

/-- One entry of the manifest. -/
def restoreEntry (fs : Rootfs ι) (rootfs : Bytes) (s : RestoreState ι) (e : Entry) :
    RestoreState ι :=
  let fullpath := rootfs ++ e.path
  if bufferSize ≤ fullpath.length then s
  else
    match fs.lsetxattr s.attrs fullpath .component e.component with
    | .error .ENOENT => { s with nSkip := s.nSkip + 1 }
    | .error _ => { s with nErr := s.nErr + 1 }
    | .ok attrs =>
      match fs.lsetxattr attrs fullpath .interval e.interval with
      | .error _ => { s with attrs, nSet := s.nSet + 1 }
      | .ok attrs => { s with attrs, nSet := s.nSet + 1 }

/-- `main`, on files that carry `attrs`. -/
def restore (fs : Rootfs ι) (rootfs file : Bytes) (attrs : Attrs ι) : RestoreState ι :=
  (restoreEntries file).foldl (restoreEntry fs rootfs) { attrs }

/-! ## What is left on a file -/

/-- The full path of the entry fits into the buffer and leads to the file. -/
def Entry.leadsTo (fs : Rootfs ι) (rootfs : Bytes) (f : ι) (e : Entry) : Bool :=
  (rootfs ++ e.path).length < bufferSize &&
    match fs.find (rootfs ++ e.path) with
    | .ok g => g = f
    | .error _ => false

/-- Whether an attribute is set: the component comes first, and when it is refused the
interval is not tried. -/
def Rootfs.sets (fs : Rootfs ι) (f : ι) : Attr → Bool
  | .component => (fs.refuses f .component).isNone
  | .interval => (fs.refuses f .component).isNone && (fs.refuses f .interval).isNone

/-- The attributes when the component has been set at a path, and then the interval. -/
def Rootfs.tag (fs : Rootfs ι) (attrs : Attrs ι) (path : Bytes) (e : Entry) : Attrs ι :=
  match fs.lsetxattr attrs path .component e.component with
  | .error _ => attrs
  | .ok attrs =>
    match fs.lsetxattr attrs path .interval e.interval with
    | .error _ => attrs
    | .ok attrs => attrs

theorem Rootfs.tag_of_error {fs : Rootfs ι} {path : Bytes} {err : Errno}
    (h : fs.find path = .error err) (attrs : Attrs ι) (e : Entry) :
    fs.tag attrs path e = attrs := by
  simp only [Rootfs.tag, Rootfs.lsetxattr, h]

theorem Rootfs.tag_of_ok {fs : Rootfs ι} {path : Bytes} {g : ι} (h : fs.find path = .ok g)
    (attrs : Attrs ι) (e : Entry) (f : ι) (a : Attr) :
    fs.tag attrs path e f a =
      if decide (g = f) && fs.sets f a then some (e.value a) else attrs f a := by
  simp only [Rootfs.tag, Rootfs.lsetxattr, h]
  by_cases hg : g = f
  · subst hg
    cases hcomponent : fs.refuses g .component with
    | some err => cases a <;> simp [Rootfs.sets, hcomponent]
    | none =>
      cases hinterval : fs.refuses g .interval <;> cases a <;>
        simp [Rootfs.sets, hcomponent, hinterval, Entry.value]
  · have hf : f ≠ g := fun h => hg h.symm
    cases fs.refuses g .component with
    | some err => simp [hg]
    | none => cases fs.refuses g .interval <;> simp [hg, Function.update_of_ne hf]

/-- A path that fits is tagged at the file that the entry leads to. -/
theorem Rootfs.tag_attrs (fs : Rootfs ι) {rootfs : Bytes} {e : Entry}
    (hlt : (rootfs ++ e.path).length < bufferSize) (attrs : Attrs ι) (f : ι) (a : Attr) :
    fs.tag attrs (rootfs ++ e.path) e f a =
      if e.leadsTo fs rootfs f && fs.sets f a then some (e.value a) else attrs f a := by
  simp only [Entry.leadsTo, hlt, decide_true, Bool.true_and]
  cases hfind : fs.find (rootfs ++ e.path) with
  | error err => simp [Rootfs.tag_of_error hfind]
  | ok g => exact Rootfs.tag_of_ok hfind attrs e f a

theorem restoreEntry_eq_tag (fs : Rootfs ι) (rootfs : Bytes) (s : RestoreState ι) (e : Entry) :
    (restoreEntry fs rootfs s e).attrs =
      if bufferSize ≤ (rootfs ++ e.path).length then s.attrs
      else fs.tag s.attrs (rootfs ++ e.path) e := by
  unfold restoreEntry Rootfs.tag
  dsimp only
  split
  · rfl
  cases fs.lsetxattr s.attrs (rootfs ++ e.path) .component e.component with
  | error err => cases err <;> rfl
  | ok attrs => cases h : fs.lsetxattr attrs (rootfs ++ e.path) .interval e.interval <;> simp [h]

theorem restoreEntry_attrs (fs : Rootfs ι) (rootfs : Bytes) (s : RestoreState ι) (e : Entry)
    (f : ι) (a : Attr) :
    (restoreEntry fs rootfs s e).attrs f a =
      if e.leadsTo fs rootfs f && fs.sets f a then some (e.value a) else s.attrs f a := by
  rw [restoreEntry_eq_tag]
  by_cases hfit : bufferSize ≤ (rootfs ++ e.path).length
  · have hlt : ¬ (rootfs ++ e.path).length < bufferSize := by omega
    have hleads : e.leadsTo fs rootfs f = false := by
      simp only [Entry.leadsTo, hlt, decide_false, Bool.false_and]
    rw [if_pos hfit, hleads]
    rfl
  · rw [if_neg hfit]
    exact fs.tag_attrs (by omega) s.attrs f a

/-- The last entry that leads to a file decides what can be set on it. -/
theorem foldl_restoreEntry_of_sets (fs : Rootfs ι) (rootfs : Bytes) (es : List Entry)
    (s : RestoreState ι) (f : ι) (a : Attr) :
    (es.foldl (restoreEntry fs rootfs) s).attrs f a =
      ((es.filter fun e => e.leadsTo fs rootfs f && fs.sets f a).getLast?.map (·.value a)).or
        (s.attrs f a) :=
  Dict.foldl_last_write (fun s k => s.attrs k.1 k.2)
    (fun k e => e.leadsTo fs rootfs k.1 && fs.sets k.1 k.2) (fun k e => e.value k.2)
    (fun e _ s k => restoreEntry_attrs fs rootfs s e k.1 k.2) s (f, a)

/-- When everything can be set, the last entry that leads to a file decides. -/
theorem foldl_restoreEntry_attrs {fs : Rootfs ι} (hset : ∀ f a, fs.refuses f a = none)
    (rootfs : Bytes) (es : List Entry) (s : RestoreState ι) (f : ι) (a : Attr) :
    (es.foldl (restoreEntry fs rootfs) s).attrs f a =
      ((es.filter (Entry.leadsTo fs rootfs f)).getLast?.map (·.value a)).or (s.attrs f a) := by
  have hsets : fs.sets f a := by cases a <;> simp [Rootfs.sets, hset]
  rw [foldl_restoreEntry_of_sets]
  simp only [hsets, Bool.and_true]

end XfceLinux.Fakecap
