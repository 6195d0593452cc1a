import XfceLinux.Fakecap.Store
import XfceLinux.Lib.Search

/-!
# The component manifest of `fakecap.c`

`manifest_load` cuts the file at `FAKECAP_MANIFEST` into entries and sorts them by path,
`manifest_lookup` finds a path by binary search, and `getxattr` of a component attribute
answers from the entry found. A C string is the list of its bytes before the terminator.
-/

namespace XfceLinux.Fakecap

open Lib Lib.Text Lib.Search

/-! ## C strings -/

def newline : UInt8 := 0x0A

def tab : UInt8 := 0x09

def hash : UInt8 := 0x23

/-- The string that starts a buffer. -/
def cString (buf : Bytes) : Bytes := buf.takeWhile (· ≠ 0)

/-- `strchr`: what stands before the first `c`, and behind it. -/
def strchr (s : Bytes) (c : UInt8) : Option (Bytes × Bytes) :=
  if c ∈ s then some (s.takeWhile (· ≠ c), (s.dropWhile (· ≠ c)).tail) else none

theorem strchr_append {s : Bytes} {c : UInt8} (h : c ∉ s) (t : Bytes) :
    strchr (s ++ c :: t) c = some (s, t) := by
  have hne := decide_ne_of_notMem h
  have hmem : c ∈ s ++ c :: t := List.mem_append_right _ List.mem_cons_self
  rw [strchr, if_pos hmem, List.takeWhile_append_of_pos hne, List.dropWhile_append_of_pos hne]
  simp

def strcmp (s t : Bytes) : Ordering := compare s t

@[simp] theorem strcmp_self (s : Bytes) : strcmp s s = .eq := by
  unfold strcmp
  exact Std.ReflCmp.compare_self

theorem strcmp_eq_eq {s t : Bytes} : strcmp s t = .eq ↔ s = t := by
  unfold strcmp
  exact Std.LawfulEqCmp.compare_eq_iff_eq

/-! ## Loading -/

/-- `ManifestEntry` -/
structure Entry where
  path : Bytes
  component : Bytes
  interval : Bytes
deriving DecidableEq

/-- What both readers of a manifest do with a line. -/
def entryOf (line : Bytes) : Option Entry :=
  if line.head? = none ∨ line.head? = some hash then none
  else
    match strchr line tab with
    | none => none
    | some (path, fields) =>
      match strchr fields tab with
      | none => some ⟨path, fields, ascii "weekly"⟩
      | some (component, interval) => some ⟨path, component, interval⟩

/-- The entries of a text. The piece behind the last newline is a line as well. -/
def entries (text : Bytes) : List Entry := (text.splitOn newline).filterMap entryOf

/-- `manifest`: the number of entries allocated, and the entries stored, before the sort. -/
structure Table where
  cap : Nat
  stored : List Entry

def manifestLoad (file : Bytes) : Table where
  cap := (cString file).count newline
  stored := entries (cString file)

/-- The table behind `qsort`. -/
def Table.sorted (t : Table) : List Entry := sortOn Entry.path t.stored

theorem length_splitOn (s : Bytes) : (s.splitOn newline).length = s.count newline + 1 := by
  rw [Lines.splitOn_eq, List.length_append, Lines.length_lines]
  rfl

/-- A text whose first line is no entry has no more entries than newlines. -/
theorem length_entries_le {line : Bytes} (hline : newline ∉ line) (hnone : entryOf line = none)
    (text : Bytes) :
    (entries (line ++ newline :: text)).length ≤ (line ++ newline :: text).count newline := by
  have hcount : (line ++ newline :: text).count newline = text.count newline + 1 := by
    rw [List.count_append, List.count_cons_self, List.count_eq_zero.mpr hline, Nat.zero_add]
  rw [entries, List.splitOn_append_cons_self_of_not_mem hline, List.filterMap_cons_none hnone,
    hcount, ← length_splitOn]
  exact List.length_filterMap_le _ _

/-! ## Serving -/

/-- `strip_prefix`, where `pfx` is empty when `FAKECAP_STRIP_PREFIX` is not set. -/
def stripPrefix (pfx path : Bytes) : Bytes :=
  if pfx = [] then path
  else if pfx.isPrefixOf path then
    let rest := path.drop pfx.length
    if rest.head? = some slash ∨ rest.head? = none then rest else path
  else path

def manifestLookup (t : Table) (pfx path : Bytes) : Option Entry :=
  if t.stored.length = 0 then none
  else
    let rel := stripPrefix pfx path
    bsearch (fun e => strcmp rel e.path) t.sorted

inductive Errno where
  | ENOENT
  | ENODATA
  | ERANGE
  | EEXIST
  | ENOTSUP
  | other
deriving DecidableEq

/-- The two component attributes. -/
inductive Attr where
  | component
  | interval
deriving DecidableEq

def Attr.name : Attr → Bytes
  | .component => ascii "user.component"
  | .interval => ascii "user.update-interval"

def Entry.value (e : Entry) : Attr → Bytes
  | .component => e.component
  | .interval => e.interval

/-- `manifest_getxattr`: the result and the bytes put into the buffer. -/
def manifestGetxattr (t : Table) (pfx path name : Bytes) (size : Nat) :
    Except Errno (Nat × Bytes) :=
  match manifestLookup t pfx path with
  | none => .error .ENODATA
  | some e =>
    let val? :=
      if name = ascii "user.component" then some e.component
      else if name = ascii "user.update-interval" then some e.interval
      else none
    match val? with
    | none => .error .ENODATA
    | some val =>
      if size = 0 then .ok (val.length, [])
      else if size < val.length then .error .ERANGE
      else .ok (val.length, val)

/-! ## What is served -/

/-- The entries of a path, in the order of the text. -/
def claims (p : Bytes) (es : List Entry) : List Entry := es.filter fun e => e.path = p

/-- The number of entries whose path comes before a path. -/
def before (p : Bytes) (es : List Entry) : Nat := es.countP fun e => strcmp e.path p = .lt

/-- Of the entries of a path the one that the search in the sorted table probes first. -/
def probed (p : Bytes) (es : List Entry) : Option Entry :=
  (firstProbe (before p es) (claims p es).length es.length).bind ((claims p es)[·]?)

theorem before_add_claims_le (p : Bytes) (es : List Entry) :
    before p es + (claims p es).length ≤ es.length := by
  induction es with
  | nil => simp [before, claims]
  | cons e es ih =>
    have hdisjoint : strcmp e.path p = .lt → e.path ≠ p := by
      rintro h rfl
      rw [strcmp_self] at h
      cases h
    simp only [before, claims, List.countP_cons, List.filter_cons, List.length_cons] at ih ⊢
    by_cases hlt : strcmp e.path p = .lt
    · simp only [hlt, hdisjoint hlt, decide_true, decide_false, if_true, Bool.false_eq_true,
        if_false]
      omega
    · simp only [hlt, decide_false, Bool.false_eq_true, if_false]
      by_cases hp : e.path = p
      · simp only [hp, decide_true, if_true, List.length_cons]
        omega
      · simp only [hp, decide_false, Bool.false_eq_true, if_false]
        omega

/-- When the entries of a path name different elements, the search finds the last of them if
and only if it probes its place first. -/
theorem probed_last_iff {p : Bytes} {es : List Entry} (hp : claims p es ≠ [])
    (hnodup : ((claims p es).map (·.component)).Nodup) :
    (∀ a, (probed p es).map (·.value a) = (claims p es).getLast?.map (·.value a)) ↔
      firstProbe (before p es) (claims p es).length es.length =
        some ((claims p es).length - 1) := by
  have hpos : 0 < (claims p es).length := List.length_pos_iff.mpr hp
  obtain ⟨m, hm⟩ := Option.isSome_iff_exists.mp
    (firstProbe_isSome hpos (before_add_claims_le p es))
  have hlt := firstProbe_lt hm
  rw [probed, hm, Option.bind_some, List.getLast?_eq_getElem?]
  constructor
  · intro h
    have hcomponent : ((claims p es).map (·.component))[m]? =
        ((claims p es).map (·.component))[(claims p es).length - 1]? := by
      rw [List.getElem?_map, List.getElem?_map]
      exact h .component
    have hm' : m < ((claims p es).map (·.component)).length := by simpa using hlt
    rw [(List.getElem?_inj hm' hnodup).mp hcomponent]
  · intro h a
    rw [Option.some.inj h]

/-- With a buffer that holds it, `getxattr` returns `value`; or there is none to return. -/
def Serves (t : Table) (pfx path : Bytes) (a : Attr) (value : Option Bytes) : Prop :=
  ∀ size, (∀ val ∈ value, val.length ≤ size) →
    manifestGetxattr t pfx path a.name size =
      value.elim (.error .ENODATA) fun val => .ok (val.length, val)

theorem manifestLookup_eq (t : Table) (pfx path : Bytes) :
    manifestLookup t pfx path = probed (stripPrefix pfx path) t.stored := by
  have hclaims : ∀ p, onSide Entry.path p .eq t.stored = claims p t.stored := by
    intro p
    refine List.filter_congr fun e _ => ?_
    rw [decide_eq_decide, Std.LawfulEqCmp.compare_eq_iff_eq]
    exact eq_comm
  have hbefore : ∀ p, (onSide Entry.path p .gt t.stored).length = before p t.stored := by
    intro p
    rw [onSide, ← List.countP_eq_length_filter]
    refine List.countP_congr fun e _ => ?_
    rw [decide_eq_true_eq, decide_eq_true_eq]
    exact Std.OrientedCmp.gt_iff_lt
  unfold manifestLookup
  split
  · rename_i hnil
    simp [probed, claims, List.length_eq_zero_iff.mp hnil]
  · simp only [strcmp, Table.sorted]
    rw [bsearch_sortOn, hclaims, hbefore]
    rfl

theorem manifestGetxattr_eq (t : Table) (pfx path : Bytes) (a : Attr) (size : Nat) :
    manifestGetxattr t pfx path a.name size =
      ((manifestLookup t pfx path).map (·.value a)).elim (.error .ENODATA) fun val =>
        if size = 0 then .ok (val.length, [])
        else if size < val.length then .error .ERANGE
        else .ok (val.length, val) := by
  unfold manifestGetxattr
  cases manifestLookup t pfx path with
  | none => rfl
  | some e => cases a <;> rfl

/-- The answers with a buffer that is large enough tell the value. -/
theorem elim_eq_iff {found value : Option Bytes} :
    (∀ size, (∀ val ∈ value, val.length ≤ size) →
      (found.elim (.error .ENODATA) fun val =>
        if size = 0 then .ok (val.length, [])
        else if size < val.length then .error .ERANGE
        else .ok (val.length, val)) =
      (value.elim (.error .ENODATA) fun val => .ok (val.length, val) :
        Except Errno (Nat × Bytes))) ↔ found = value := by
  constructor
  · intro h
    cases value with
    | none =>
      cases found with
      | none => rfl
      | some val => simpa using h (val.length + 1) (by simp)
    | some want =>
      cases found with
      | none => simpa using h want.length (by simp)
      | some val =>
        have hbig := h (want.length + val.length + 1) (by simp; omega)
        simp only [Option.elim_some] at hbig
        rw [if_neg (by omega), if_neg (by omega)] at hbig
        simp_all
  · rintro rfl size hsize
    cases found with
    | none => rfl
    | some val =>
      have hle := hsize val rfl
      simp only [Option.elim_some]
      split
      · rename_i hzero
        obtain rfl : val = [] := List.length_eq_zero_iff.mp (by omega)
        rfl
      · rw [if_neg (by omega)]

theorem serves_iff {t : Table} {pfx path : Bytes} {a : Attr} {value : Option Bytes} :
    Serves t pfx path a value ↔
      (probed (stripPrefix pfx path) t.stored).map (·.value a) = value := by
  unfold Serves
  simp only [manifestGetxattr_eq, manifestLookup_eq]
  exact elim_eq_iff

end XfceLinux.Fakecap
