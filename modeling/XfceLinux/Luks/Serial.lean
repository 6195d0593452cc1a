import XfceLinux.Lib.Sequences
import XfceLinux.Lib.Words
import XfceLinux.Luks.Unlock

/-!
# Reading the serial log

`qemu_check_serial` looks for its markers in three views of the log: as it is, without the
escape sequences, and with white space collapsed on top of that. The log grows between two
polls, and what is appended can complete a sequence that was still shown, or extend the
last word. Neither takes a marker away, so the result never goes back (`classify_mono`).
-/

namespace XfceLinux.Luks

open Lib.Text Lib.Regex

/-- `\x1b\[[0-9;]*[A-Za-z]` -/
def ansiEscape : Re :=
  cat [lit "\x1b[", .star (.set fun c => range '0' '9' c || c == ';'),
    .set fun c => range 'A' 'Z' c || range 'a' 'z' c]

/-- What `qemu_check_serial` makes of the text of the log. -/
def classify (raw : Str) : Serial :=
  let content := sub ansiEscape [] raw
  let content_flat := collapse content
  if contains "emergency mode".toList content || contains "emergency shell".toList content then
    .emergency
  else if contains "Started gnome-initial-setup".toList content_flat then .gnomeInitialSetup
  else if contains "Started gdm.service".toList content_flat ||
      contains "Started GNOME Display Manager".toList content_flat then .gdm
  else if contains "Please enter passphrase for disk".toList raw then .plymouth
  else .unknown

/-- The order in which the markers come up during a boot. -/
def Serial.rank : Serial → Nat
  | .unknown => 0
  | .plymouth => 1
  | .gdm => 2
  | .gnomeInitialSetup => 3
  | .emergency => 4

/-- The log shows a marker of the result. -/
def Shows (raw : Str) : Serial → Prop
  | .unknown => True
  | .plymouth => "Please enter passphrase for disk".toList <:+: raw
  | .gdm => "Started gdm.service".toList <:+: collapse (sub ansiEscape [] raw) ∨
      "Started GNOME Display Manager".toList <:+: collapse (sub ansiEscape [] raw)
  | .gnomeInitialSetup =>
      "Started gnome-initial-setup".toList <:+: collapse (sub ansiEscape [] raw)
  | .emergency => "emergency mode".toList <:+: sub ansiEscape [] raw ∨
      "emergency shell".toList <:+: sub ansiEscape [] raw

/-! ## The result is the highest marker -/

theorem contains_iff {pat s : Str} : contains pat s = true ↔ pat <:+: s := by
  induction s with
  | nil => simp [contains, List.isEmpty_iff]
  | cons c s ih =>
    rw [contains, Bool.or_eq_true, List.isPrefixOf_iff_prefix, ih, List.infix_cons_iff]

theorem shows_classify (raw : Str) : Shows raw (classify raw) := by
  unfold classify
  dsimp only
  split
  · rename_i h
    simpa only [Bool.or_eq_true, contains_iff, Shows] using h
  split
  · rename_i h
    exact contains_iff.mp h
  split
  · rename_i h
    simpa only [Bool.or_eq_true, contains_iff, Shows] using h
  split
  · rename_i h
    exact contains_iff.mp h
  · trivial

theorem rank_le_classify {raw : Str} {m : Serial} (h : Shows raw m) :
    m.rank ≤ (classify raw).rank := by
  unfold classify
  simp only [Bool.or_eq_true, contains_iff]
  split
  · cases m <;> decide
  rename_i hemergency
  split
  · cases m with
    | emergency => exact absurd h hemergency
    | _ => decide
  rename_i hsetup
  split
  · cases m with
    | emergency => exact absurd h hemergency
    | gnomeInitialSetup => exact absurd h hsetup
    | _ => decide
  rename_i hgdm
  split
  · cases m with
    | emergency => exact absurd h hemergency
    | gnomeInitialSetup => exact absurd h hsetup
    | gdm => exact absurd h hgdm
    | _ => decide
  rename_i hplymouth
  cases m with
  | emergency => exact absurd h hemergency
  | gnomeInitialSetup => exact absurd h hsetup
  | gdm => exact absurd h hgdm
  | plymouth => exact absurd h hplymouth
  | unknown => decide

/-! ## A growing log -/

/-- A marker of words holds no character of an unfinished escape sequence. -/
structure Plain (pat : Str) : Prop where
  ne_nil : pat ≠ []
  last : ∀ v, pat ≠ v ++ [' ']
  escape : ∀ c ∈ pat, c ∉ "\x1b[".toList ∧ isParameter c = false

theorem plain_of_all {pat : Str} (hlast : pat.getLast?.all (· != ' ') = true) (hne : pat ≠ [])
    (h : (pat.all fun c => !("\x1b[".toList.contains c) && !isParameter c) = true) :
    Plain pat where
  ne_nil := hne
  last := by
    rintro v rfl
    simp at hlast
  escape c hc := by
    have := List.all_eq_true.mp h c hc
    simpa using this

/-- What is read of the log without its sequences: a part that stays in front of more text,
and behind it characters that no marker holds. -/
theorem exists_kept (s t : Str) : ∃ kept tail, sub ansiEscape [] s = kept ++ tail ∧
    kept <+: sub ansiEscape [] (s ++ t) ∧
    ∀ c ∈ tail, c ∈ "\x1b[".toList ∨ isParameter c = true := by
  have hreads : Reads ansiEscape '\x1b' Escape := reads_escape
  obtain ⟨kept, tail, hs, hkept, htail⟩ := hreads.sub_append s t
  refine ⟨kept, tail, hs, hkept, ?_⟩
  rcases htail with rfl | ⟨w, hw, hprefix, hne⟩
  · simp
  · exact mem_of_prefix_bracketed hw hprefix hne

theorem Plain.notMem {pat : Str} (h : Plain pat) {tail : Str}
    (htail : ∀ c ∈ tail, c ∈ "\x1b[".toList ∨ isParameter c = true) : ∀ c ∈ tail, c ∉ pat := by
  intro c hc hpat
  obtain ⟨hescape, hparameter⟩ := h.escape c hpat
  rcases htail c hc with hmem | hp
  · exact hescape hmem
  · rw [hparameter] at hp
    cases hp

theorem Plain.content {pat : Str} (h : Plain pat) {s : Str} (t : Str)
    (hs : pat <:+: sub ansiEscape [] s) : pat <:+: sub ansiEscape [] (s ++ t) := by
  obtain ⟨kept, tail, hsub, hkept, htail⟩ := exists_kept s t
  rw [hsub] at hs
  exact (infix_of_infix_append h.ne_nil (h.notMem htail) hs).trans hkept.isInfix

theorem Plain.content_flat {pat : Str} (h : Plain pat) {s : Str} (t : Str)
    (hs : pat <:+: collapse (sub ansiEscape [] s)) :
    pat <:+: collapse (sub ansiEscape [] (s ++ t)) := by
  obtain ⟨kept, tail, hsub, ⟨rest, hrest⟩, htail⟩ := exists_kept s t
  rw [hsub] at hs
  rw [← hrest]
  exact (infix_collapse_of_append h.ne_nil h.last (h.notMem htail) hs).trans
    (prefix_collapse kept rest).isInfix

theorem Shows.append {s : Str} {m : Serial} (h : Shows s m) (t : Str) : Shows (s ++ t) m := by
  cases m with
  | unknown => trivial
  | plymouth =>
    have hs : "Please enter passphrase for disk".toList <:+: s := h
    exact hs.trans (List.prefix_append s t).isInfix
  | gdm =>
    apply Or.imp _ _ h
    · exact (plain_of_all (by decide) (by decide) (by decide)).content_flat t
    · exact (plain_of_all (by decide) (by decide) (by decide)).content_flat t
  | gnomeInitialSetup =>
    exact (plain_of_all (by decide) (by decide) (by decide)).content_flat t h
  | emergency =>
    apply Or.imp _ _ h
    · exact (plain_of_all (by decide) (by decide) (by decide)).content t
    · exact (plain_of_all (by decide) (by decide) (by decide)).content t

/-- **The classification never goes back**, wherever the log was cut. -/
theorem classify_mono (s t : Str) : (classify s).rank ≤ (classify (s ++ t)).rank :=
  rank_le_classify ((shows_classify s).append t)

/-- The end of a sequence joins the two halves of a marker. -/
example : classify "emergency \x1b[1".toList = .unknown ∧
    classify "emergency \x1b[1mmode".toList = .emergency := by decide +kernel

end XfceLinux.Luks
