import XfceLinux.Lib.Dict
import XfceLinux.Lib.Text

/-!
# The keys of a passphrase

Each back-end has its own table of keys: `virsh send-key` takes the names of the Linux input
codes, the QEMU monitor those of `sendkey`. Both skip a character that is not in the table.
The tables hold the same characters, and the monitor presses shift for an underscore, which
`virsh_send_passphrase` does not: without it the key types a minus (`same_text_iff`).
-/

namespace XfceLinux.Luks

open Lib Lib.Text

/-! ## The tables -/

def letters : Str := "abcdefghijklmnopqrstuvwxyz".toList

def digits : Str := "0123456789".toList

/-- `key_map` of `virsh_send_passphrase` -/
def virsh_key_map : List (Char × Str) :=
  letters.map (fun c => (c, "KEY_".toList ++ [c.toUpper])) ++
    digits.map (fun c => (c, "KEY_".toList ++ [c])) ++
    [('-', "KEY_MINUS".toList), ('_', "KEY_MINUS".toList), (' ', "KEY_SPACE".toList)]

/-- `key_map` of `qemu_send_passphrase` -/
def qemu_key_map : List (Char × Str) :=
  (letters ++ digits).map (fun c => (c, [c])) ++
    [('-', "minus".toList), ('_', "shift-minus".toList), (' ', "spc".toList)]

/-- The characters in the tables. -/
def typable : Str := letters ++ digits ++ ['-', '_', ' ']

/-- The keys that a loop over the passphrase sends. -/
def keysOf (key_map : List (Char × Str)) : Str → List Str
  | [] => []
  | ch :: passphrase =>
    match Dict.get? key_map ch with
    | none => keysOf key_map passphrase
    | some key => key :: keysOf key_map passphrase

/-- The keys that `virsh_send_passphrase` sends. -/
def virsh_send_passphrase (passphrase : Str) : List Str :=
  keysOf virsh_key_map passphrase ++ ["KEY_ENTER".toList]

/-- The keys that `qemu_send_passphrase` sends. -/
def qemu_send_passphrase (passphrase : Str) : List Str :=
  keysOf qemu_key_map passphrase ++ ["ret".toList]

/-! ## A US keyboard -/

/-- What the key of an input code types, without a modifier. -/
def linuxTypes (key : Str) : Option Char :=
  if key = "KEY_MINUS".toList then some '-'
  else if key = "KEY_SPACE".toList then some ' '
  else if key = "KEY_ENTER".toList then some '\n'
  else
    match key with
    | ['K', 'E', 'Y', '_', c] => if c.isUpper ∨ c.isDigit then some c.toLower else none
    | _ => none

/-- What a key of the monitor types, with its modifier. -/
def qemuTypes (key : Str) : Option Char :=
  if key = "minus".toList then some '-'
  else if key = "shift-minus".toList then some '_'
  else if key = "spc".toList then some ' '
  else if key = "ret".toList then some '\n'
  else
    match key with
    | [c] => if c.isLower ∨ c.isDigit then some c else none
    | _ => none

/-- Both back-ends type one text and Enter, which is the passphrase if it has a key for each
character. -/
def SameText (passphrase : Str) : Prop :=
  ∃ text, (virsh_send_passphrase passphrase).filterMap linuxTypes = text ++ ['\n'] ∧
    (qemu_send_passphrase passphrase).filterMap qemuTypes = text ++ ['\n'] ∧
    ((∀ c ∈ passphrase, c ∈ typable) → text = passphrase)

/-! ## Character by character -/

theorem get?_eq_none {d : List (Char × Str)} {c : Char} (h : c ∉ d.map (·.1)) :
    Dict.get? d c = none := by
  induction d with
  | nil => rfl
  | cons e d ih =>
    rw [List.map_cons, List.mem_cons, not_or] at h
    rw [Dict.get?_cons, if_neg (Ne.symm h.1)]
    exact ih h.2

theorem virsh_types (c : Char) : (Dict.get? virsh_key_map c).bind linuxTypes =
    if c ∈ typable then some (if c = '_' then '-' else c) else none := by
  have hKeys : virsh_key_map.map (·.1) = typable := by decide
  have hTypes : typable.all (fun c => (Dict.get? virsh_key_map c).bind linuxTypes =
      some (if c = '_' then '-' else c)) = true := by decide +kernel
  split
  · rename_i hc
    exact of_decide_eq_true (List.all_eq_true.mp hTypes c hc)
  · rename_i hc
    rw [get?_eq_none (by rwa [hKeys])]
    rfl

theorem qemu_types (c : Char) : (Dict.get? qemu_key_map c).bind qemuTypes =
    if c ∈ typable then some c else none := by
  have hKeys : qemu_key_map.map (·.1) = typable := by decide
  have hTypes : typable.all (fun c => (Dict.get? qemu_key_map c).bind qemuTypes = some c) =
      true := by decide +kernel
  split
  · rename_i hc
    exact of_decide_eq_true (List.all_eq_true.mp hTypes c hc)
  · rename_i hc
    rw [get?_eq_none (by rwa [hKeys])]
    rfl

/-- A loop types what the characters type one by one. -/
theorem filterMap_keysOf (key_map : List (Char × Str)) (types : Str → Option Char)
    (passphrase : Str) :
    (keysOf key_map passphrase).filterMap types =
      passphrase.filterMap fun c => (Dict.get? key_map c).bind types := by
  induction passphrase with
  | nil => rfl
  | cons c passphrase ih =>
    rw [keysOf, List.filterMap_cons]
    cases hkey : Dict.get? key_map c with
    | none => exact ih
    | some key =>
      dsimp only
      rw [List.filterMap_cons, ih]
      rfl

theorem typed_virsh (passphrase : Str) :
    (virsh_send_passphrase passphrase).filterMap linuxTypes =
      (passphrase.filter (· ∈ typable)).map (fun c => if c = '_' then '-' else c) ++ ['\n'] := by
  have henter : ["KEY_ENTER".toList].filterMap linuxTypes = ['\n'] := by decide
  rw [virsh_send_passphrase, List.filterMap_append, henter, filterMap_keysOf]
  simp only [virsh_types]
  rw [← List.filterMap_eq_map, List.filterMap_filter]
  simp only [decide_eq_true_eq]
  rfl

theorem typed_qemu (passphrase : Str) :
    (qemu_send_passphrase passphrase).filterMap qemuTypes =
      passphrase.filter (· ∈ typable) ++ ['\n'] := by
  have hret : ["ret".toList].filterMap qemuTypes = ['\n'] := by decide
  rw [qemu_send_passphrase, List.filterMap_append, hret, filterMap_keysOf]
  simp only [qemu_types]
  have hguard : (fun c => if c ∈ typable then some c else none) =
      Option.guard fun c => decide (c ∈ typable) := by
    funext c
    simp [Option.guard]
  rw [hguard, List.filterMap_eq_filter]

/-! ## The passphrase -/

/-- **When both back-ends type the same text**: exactly for a passphrase without an
underscore, for which `virsh_send_passphrase` types a minus. -/
theorem same_text_iff (passphrase : Str) : SameText passphrase ↔ '_' ∉ passphrase := by
  unfold SameText
  rw [typed_virsh, typed_qemu]
  constructor
  · rintro ⟨text, hvirsh, hqemu, -⟩ hmem
    rw [← hqemu] at hvirsh
    have hsame := List.append_cancel_right hvirsh
    have hkept : '_' ∈ passphrase.filter (· ∈ typable) :=
      List.mem_filter.mpr ⟨hmem, by decide⟩
    rw [← hsame] at hkept
    obtain ⟨c, -, hc⟩ := List.mem_map.mp hkept
    split at hc
    · exact absurd hc (by decide)
    · contradiction
  · intro hno
    refine ⟨passphrase.filter (· ∈ typable), ?_, rfl, ?_⟩
    · apply congrArg (· ++ ['\n'])
      refine (List.map_congr_left (g := id) ?_).trans (List.map_id _)
      intro c hc
      apply if_neg
      rintro rfl
      exact hno (List.mem_filter.mp hc).1
    · intro hall
      rw [List.filter_eq_self]
      intro c hc
      exact decide_eq_true (hall c hc)

theorem underscore_typed_as_minus : ¬ ∀ passphrase, SameText passphrase := by
  intro h
  obtain ⟨text, hvirsh, hqemu, -⟩ := h "_".toList
  rw [← hqemu, typed_virsh, typed_qemu] at hvirsh
  exact absurd hvirsh (by decide)

end XfceLinux.Luks
