import XfceLinux.Lib.Text

/-!
# Typing the passphrase of a QEMU guest

`run_qemu` polls the serial log and the display of the guest until the passphrase prompt
shows, types the passphrase, and polls on until it can tell how the boot went. Both loops
are modelled as functions of the polls that fall before their deadlines. The report of a
run lists the calls that each iteration made, with their results. An exception of
`subprocess.run` ends the script at once and is left out.
-/

namespace XfceLinux.Luks

open Lib.Text

/-! ## What a poll sees -/

/-- The results of `qemu_check_serial`. -/
inductive Serial where
  | plymouth
  | emergency
  | gnomeInitialSetup
  | gdm
  | unknown
deriving DecidableEq, Repr

/-- The results of `qemu_screendump`: `(-1, '')` when there is nothing to read. The brightness is
the exact quotient, where Python has the nearest double. -/
structure Dump where
  brightness : ℚ
  md5 : Str
  valid : brightness = -1 ∧ md5 = [] ∨ 0 ≤ brightness ∧ md5 ≠ []
deriving DecidableEq

/-- The capture succeeded. -/
def Dump.Ok (d : Dump) : Prop := 0 ≤ d.brightness

instance (d : Dump) : Decidable d.Ok := inferInstanceAs (Decidable (0 ≤ d.brightness))

theorem Dump.md5_ne_nil {d : Dump} (h : d.Ok) : d.md5 ≠ [] := by
  rcases d.valid with ⟨hb, -⟩ | ⟨-, hmd5⟩
  · rw [Dump.Ok, hb] at h
    norm_num at h
  · exact hmd5

def Dump.failed : Dump := ⟨-1, [], .inl ⟨rfl, rfl⟩⟩

/-- The offset behind the first `255\n`. -/
def headerEnd : Bytes → Option Nat
  | [] => none
  | b :: data =>
    if (ascii "255\n").isPrefixOf (b :: data) then some 4
    else (headerEnd data).map (· + 1)

/-- `pixel_data[::100]` -/
def sampled (pixel_data : Bytes) : Bytes :=
  (List.range pixel_data.length).filterMap fun i => pixel_data[100 * i]?

/-- What `qemu_screendump` returns for the file it reads, if it can. A digest has digits. -/
def qemu_screendump (hexdigest : Bytes → { s : Str // s ≠ [] }) : Option Bytes → Dump
  | none => .failed
  | some data =>
    match headerEnd data with
    | none => .failed
    | some n =>
      let pixel_data := data.drop n
      if pixel_data = [] then .failed
      else
        { brightness :=
            (((sampled pixel_data).map UInt8.toNat).sum : ℚ) / (sampled pixel_data).length
          md5 := hexdigest data
          valid := .inr ⟨by positivity, (hexdigest data).2⟩ }

structure Poll where
  serial : Serial
  dump : Dump
deriving DecidableEq

/-- A poll after the passphrase. `final` is the screendump of the success path. -/
structure BootPoll extends Poll where
  final : Dump
deriving DecidableEq

inductive Call where
  | qemu_check_serial (result : Serial)
  | qemu_screendump (result : Dump)
  | qemu_send_passphrase
deriving DecidableEq

/-! ## The search for the prompt -/

def CONTENT_THRESHOLD : ℚ := 1 / 2

def STABLE_POLLS : Nat := 2

structure Search where
  had_content : Bool
  stable_count : Nat
  prev_hash : Str
deriving DecidableEq

def Search.init : Search := ⟨false, 0, []⟩

/-- One iteration, with whether it types the passphrase and leaves the loop. -/
def Search.poll (s : Search) (p : Poll) : Search × Bool :=
  if p.serial = .plymouth then (s, true)
  else if p.dump.brightness < 0 then ({ s with stable_count := 0 }, false)
  else
    let had_content := s.had_content || decide (CONTENT_THRESHOLD < p.dump.brightness)
    let t : Search :=
      if had_content then
        { had_content := had_content
          stable_count := if p.dump.md5 = s.prev_hash then s.stable_count + 1 else 0
          prev_hash := p.dump.md5 }
      else { s with had_content := had_content }
    (t, t.had_content && decide (STABLE_POLLS ≤ t.stable_count))

def searchCalls (p : Poll) (sent : Bool) : List Call :=
  [.qemu_check_serial p.serial, .qemu_screendump p.dump] ++
    if sent then [.qemu_send_passphrase] else []

/-- The calls of each iteration before the deadline, and the variables behind the `break`,
if there is one. -/
def search (s : Search) : List Poll → List (List Call) × Option Search
  | [] => ([], none)
  | p :: polls =>
    let t := s.poll p
    if t.2 then ([searchCalls p true], some t.1)
    else
      let r := search t.1 polls
      (searchCalls p false :: r.1, r.2)

/-! ## Watching the boot -/

inductive Exit where
  | undetected
  | emergency
  | gnomeInitialSetup
  | gdm
  | framebuffer (bright : Bool)
  | timeout
deriving DecidableEq, Repr

def Exit.code : Exit → Nat
  | .undetected => 1
  | .emergency => 2
  | .gnomeInitialSetup | .gdm => 0
  | .framebuffer bright => if bright then 0 else 2
  | .timeout => 2

def GNOME_THRESHOLD : ℚ := 9 / 5

def GNOME_STABLE_POLLS : Nat := 1

structure Watch where
  passphrase_hash : Str
  prev_hash : Str
  screen_changed : Bool
  gnome_stable_count : Nat
deriving DecidableEq

/-- The variables when the passphrase has been sent. -/
def Search.watch (s : Search) : Watch := ⟨s.prev_hash, s.prev_hash, false, 0⟩

/-- One iteration, with the `sys.exit` it comes to, if any. -/
def Watch.poll (w : Watch) (p : BootPoll) : Watch × Option Exit :=
  if p.serial = .emergency then (w, some .emergency)
  else
    let w := { w with
      screen_changed := w.screen_changed || decide (p.dump.md5 ≠ w.passphrase_hash) }
    if p.serial = .gnomeInitialSetup then (w, some .gnomeInitialSetup)
    else if p.serial = .gdm then (w, some .gdm)
    else
      let w := { w with
        gnome_stable_count :=
          if p.dump.md5 = w.prev_hash then w.gnome_stable_count + 1 else 0 }
      if w.screen_changed ∧ GNOME_STABLE_POLLS ≤ w.gnome_stable_count then
        (w, some (.framebuffer (GNOME_THRESHOLD < p.dump.brightness)))
      else ({ w with prev_hash := p.dump.md5 }, none)

def bootCalls (p : BootPoll) : List Call :=
  .qemu_check_serial p.serial ::
    match p.serial with
    | .emergency => []
    | .gnomeInitialSetup | .gdm => [.qemu_screendump p.dump, .qemu_screendump p.final]
    | _ => [.qemu_screendump p.dump]

def boot (w : Watch) : List BootPoll → List (List Call) × Exit
  | [] => ([], .timeout)
  | p :: polls =>
    let t := w.poll p
    match t.2 with
    | some e => ([bootCalls p], e)
    | none =>
      let r := boot t.1 polls
      (bootCalls p :: r.1, r.2)

/-! ## The script -/

structure Report where
  /-- The calls of each iteration of the search. -/
  search : List (List Call)
  /-- The calls of each iteration after the passphrase. -/
  boot : List (List Call)
  exit : Exit

/-- `run_qemu`, with the polls that fall before each of the two deadlines. -/
def run_qemu (polls : List Poll) (boots : List BootPoll) : Report :=
  let found := search .init polls
  match found.2 with
  | none => ⟨found.1, [], .undetected⟩
  | some s =>
    let r := boot s.watch boots
    ⟨found.1, r.1, r.2⟩

/-- The screendumps among the calls. -/
def captures (calls : List (List Call)) : List Dump :=
  calls.flatten.filterMap fun
    | .qemu_screendump d => some d
    | _ => none

end XfceLinux.Luks
