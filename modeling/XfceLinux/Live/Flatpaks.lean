import XfceLinux.Lib.Matches

/-!
# Which Flatpaks stay installed

`install-flatpaks.sh` removes the applications that are not on its list. It looks for an
installed one by matching its ID, as a regular expression, against the list in one line. The
ID may match inside another entry, or with a dot in place of any other character, and then
the application stays although it is not wanted (`reconciled_iff`).
-/

namespace XfceLinux.Live

open Lib Lib.Text Lib.Regex

/-! ## The list -/

/-- `[[:space:]]` -/
def isBlank (c : Char) : Bool :=
  c == ' ' || c == '\t' || c == '\n' || c == '\x0b' || c == '\x0c' || c == '\r'

/-- `^[[:space:]]*#` -/
def comment : Re := cat [.bos, .star (.set isBlank), lit "#"]

/-- `^[[:space:]]*$` -/
def blank : Re := cat [.bos, .star (.set isBlank), .eos]

/-- `grep -v` -/
def grepV (r : Re) (lines : List Str) : List Str := lines.filter fun l => (search r l).isNone

/-- The entries of the list, from the lines of its file. -/
def WANTED (lines : List Str) : List Str := grepV blank (grepV comment lines)

/-! ## The loop -/

/-- The characters of an application ID. -/
def isIdChar (c : Char) : Bool :=
  range 'a' 'z' c || range 'A' 'Z' c || range '0' '9' c || c == '_' || c == '-' || c == '.'

structure AppId where
  text : Str
  ne_nil : text ≠ []
  chars : text.all isIdChar = true
deriving DecidableEq

def INSTALLER_APP_ID : Str := "org.tunaos.InstallerXfce".toList

/-- What a character of an ID matches in an extended regular expression. -/
def ereClass (c : Char) : Char → Bool := if c = '.' then fun _ => true else (· == c)

/-- `${app}` as a regular expression. -/
def AppId.ere (app : AppId) : Re := cat ((app.text.map ereClass).map .set)

/-- `" ${WANTED[*]} "` -/
def padded (wanted : List Str) : Str := ' ' :: ([' '].intercalate wanted ++ [' '])

/-- `" ${WANTED[*]} " =~ ${app}` -/
def AppId.isWanted (app : AppId) (wanted : List Str) : Bool :=
  (search app.ere (padded wanted)).isSome

/-- `flatpak uninstall` -/
def uninstall (app : AppId) (left : List AppId) : List AppId := left.filter (· ≠ app)

/-- The loop over `INSTALLED`, with the applications that are left. -/
def removeDropped (wanted : List Str) : List AppId → List AppId → List AppId
  | [], left => left
  | app :: apps, left =>
    if app.text = INSTALLER_APP_ID then removeDropped wanted apps left
    else if app.isWanted wanted then removeDropped wanted apps left
    else removeDropped wanted apps (uninstall app left)

/-- The applications that are left of those installed. -/
def reconcile (lines : List Str) (installed : List AppId) : List AppId :=
  removeDropped (WANTED lines) installed installed

/-! ## What stays -/

/-- The ID stands somewhere in the text, each of its dots for any character. -/
def AppId.OccursIn (app : AppId) (text : Str) : Prop :=
  ∃ u v w, text = u ++ v ++ w ∧ List.Forall₂ (fun c x => c = '.' ∨ x = c) app.text v

theorem ereClass_iff (c x : Char) : ereClass c x = true ↔ c = '.' ∨ x = c := by
  unfold ereClass
  split
  · rename_i hdot
    exact iff_of_true rfl (.inl hdot)
  · rename_i hdot
    rw [beq_iff_eq, or_iff_right hdot]

theorem isWanted_iff (app : AppId) (wanted : List Str) :
    app.isWanted wanted = true ↔ app.OccursIn (padded wanted) := by
  have hclasses : ∀ v : Str,
      List.Forall₂ (fun p x => p x = true) (app.text.map ereClass) v ↔
        List.Forall₂ (fun c x => c = '.' ∨ x = c) app.text v := by
    intro v
    rw [List.forall₂_map_left_iff]
    simp only [ereClass_iff]
  rw [AppId.isWanted, search, searchFrom_isSome]
  constructor
  · rintro ⟨u, s, hus, d, hd⟩
    obtain ⟨v, w, hvw, hv, -⟩ := mem_run_classes.mp hd
    refine ⟨u, v, w, ?_, (hclasses v).mp hv⟩
    change s = v ++ w at hvw
    rw [hus, hvw, List.append_assoc]
  · rintro ⟨u, v, w, huvw, hv⟩
    refine ⟨u, v ++ w, by rw [huvw, List.append_assoc], ?_⟩
    exact ⟨_, mem_run_classes.mpr ⟨v, w, rfl, (hclasses v).mpr hv, rfl⟩⟩

theorem infix_padded {wanted : List Str} {w : Str} (h : w ∈ wanted) : w <:+: padded wanted := by
  obtain ⟨i, hi⟩ := List.mem_iff_getElem?.mp h
  have hmem : w ∈ wanted.intersperse [' '] := by
    apply List.mem_of_getElem? (i := 2 * i)
    rw [List.getElem?_intersperse_two_mul, hi]
  have hjoined : w <:+: [' '].intercalate wanted := List.infix_of_mem_flatten hmem
  exact hjoined.trans ⟨[' '], [' '], rfl⟩

theorem infix_occursIn {app : AppId} {text : Str} (h : app.text <:+: text) :
    app.OccursIn text := by
  obtain ⟨u, w, huw⟩ := h
  refine ⟨u, app.text, w, huw.symm, ?_⟩
  rw [List.forall₂_same]
  intro c _
  exact .inr rfl

/-! ## Through the loop -/

/-- The loop keeps the application. -/
def AppId.Kept (app : AppId) (wanted : List Str) : Prop :=
  app.text = INSTALLER_APP_ID ∨ app.isWanted wanted = true

theorem mem_uninstall {a app : AppId} {left : List AppId} :
    app ∈ uninstall a left ↔ app ∈ left ∧ app ≠ a := by
  rw [uninstall, List.mem_filter, decide_eq_true_iff]

theorem mem_removeDropped {wanted : List Str} {apps left : List AppId} {app : AppId} :
    app ∈ removeDropped wanted apps left ↔
      app ∈ left ∧ (app ∈ apps → app.Kept wanted) := by
  induction apps generalizing left with
  | nil => simp [removeDropped]
  | cons a apps ih =>
    have hkept : a.Kept wanted →
        ((app ∈ apps → app.Kept wanted) ↔ (app ∈ a :: apps → app.Kept wanted)) := by
      intro ha
      rw [List.mem_cons, or_imp, iff_and_self]
      rintro _ rfl
      exact ha
    rw [removeDropped]
    split
    · rename_i hinstaller
      rw [ih, hkept (.inl hinstaller)]
    rename_i hinstaller
    split
    · rename_i hwanted
      rw [ih, hkept (.inr hwanted)]
    · rename_i hwanted
      have hdropped : ¬ a.Kept wanted := fun h => h.elim hinstaller hwanted
      rw [ih, mem_uninstall, and_assoc, List.mem_cons, or_imp]
      have hne : app ≠ a ↔ (app = a → app.Kept wanted) := by
        constructor
        · exact fun h h' => absurd h' h
        · rintro h rfl
          exact hdropped (h rfl)
      rw [hne]

theorem mem_reconcile {lines : List Str} {installed : List AppId} {app : AppId} :
    app ∈ reconcile lines installed ↔ app ∈ installed ∧ app.Kept (WANTED lines) := by
  rw [reconcile, mem_removeDropped]
  constructor
  · rintro ⟨happ, hkept⟩
    exact ⟨happ, hkept happ⟩
  · rintro ⟨happ, hkept⟩
    exact ⟨happ, fun _ => hkept⟩

/-! ## The wanted set -/

/-- **When exactly the wanted applications stay**: when no other one that is installed, apart
from the installer, occurs in the line of the wanted IDs. -/
theorem reconciled_iff (lines : List Str) (installed : List AppId) :
    (∀ app, app ∈ reconcile lines installed ↔
      app ∈ installed ∧ (app.text ∈ WANTED lines ∨ app.text = INSTALLER_APP_ID)) ↔
    ∀ app ∈ installed, app.text ∉ WANTED lines → app.text ≠ INSTALLER_APP_ID →
      ¬ app.OccursIn (padded (WANTED lines)) := by
  constructor
  · intro h app happ hwanted hinstaller hoccurs
    have hleft : app ∈ reconcile lines installed :=
      mem_reconcile.mpr ⟨happ, .inr ((isWanted_iff app _).mpr hoccurs)⟩
    exact ((h app).mp hleft).2.elim hwanted hinstaller
  · intro h app
    rw [mem_reconcile, and_congr_right_iff]
    intro happ
    constructor
    · rintro (hinstaller | hwanted)
      · exact .inr hinstaller
      · by_contra hno
        rw [not_or] at hno
        exact h app happ hno.1 hno.2 ((isWanted_iff app _).mp hwanted)
    · rintro (hwanted | hinstaller)
      · exact .inr ((isWanted_iff app _).mpr (infix_occursIn (infix_padded hwanted)))
      · exact .inl hinstaller

def calendar : AppId := ⟨"org.gnome.Calendar".toList, by simp, by decide +kernel⟩

/-- Its ID begins with the other one. -/
def calendarDevel : AppId := ⟨"org.gnome.Calendar.Devel".toList, by simp, by decide +kernel⟩

/-- The application that is not wanted stays beside the one that is. -/
theorem dropped_app_stays : ¬ ∀ (lines : List Str) (installed : List AppId), ∀ app,
    app ∈ reconcile lines installed ↔
      app ∈ installed ∧ (app.text ∈ WANTED lines ∨ app.text = INSTALLER_APP_ID) := by
  intro h
  have hwanted : WANTED [calendarDevel.text] = [calendarDevel.text] := by decide +kernel
  have hoccurs : calendar.OccursIn (padded [calendarDevel.text]) :=
    infix_occursIn ⟨[' '], ".Devel ".toList, by decide +kernel⟩
  have hstays := h [calendarDevel.text] [calendar, calendarDevel] calendar
  rw [mem_reconcile, hwanted] at hstays
  obtain ⟨-, hmem | hinstaller⟩ := hstays.mp
    ⟨List.mem_cons_self, .inr ((isWanted_iff calendar _).mpr hoccurs)⟩
  · exact absurd hmem (by decide +kernel)
  · exact absurd hinstaller (by decide +kernel)

end XfceLinux.Live
