import XfceLinux.Lib.Utf8
import XfceLinux.Luks.Fresh
import XfceLinux.Luks.Keys
import XfceLinux.Luks.Serial

/-!
# Exceptions of the helpers

`qemu_screendump` catches an `OSError` of the file and the `ValueError` of the search for its
header, but not what `subprocess.run` raises; `qemu_check_serial` catches an `OSError` of the
log, but not the `UnicodeDecodeError` of its text. Nothing else catches them, so `run_qemu`
ends with them at the first call that it makes in such a case (`helpers_return_iff`).
-/

namespace XfceLinux.Luks.Raising

open Lib Lib.Text Lib.Utf8

/-! ## The helpers -/

inductive Raised where
  | timeoutExpired
  | osError
  | unicodeDecodeError
deriving DecidableEq, Repr

/-- What becomes of a command that is run with a timeout. -/
inductive Command where
  | exited (returncode : Int)
  | timedOut
  /-- There is no such program. -/
  | notStarted
deriving DecidableEq

/-- `subprocess.run` -/
def Command.run : Command → Except Raised Int
  | .exited returncode => .ok returncode
  | .timedOut => .error .timeoutExpired
  | .notStarted => .error .osError

/-- `qemu_screendump`, for the command and the file that it finds. -/
def qemu_screendump (hexdigest : Bytes → { s : Str // s ≠ [] }) (command : Command)
    (file : Option Bytes) : Except Raised Dump := do
  let _ ← command.run
  pure (Luks.qemu_screendump hexdigest file)

/-- `qemu_check_serial`, for the bytes of the log if it can be opened. -/
def qemu_check_serial (log : Option Bytes) : Except Raised Serial :=
  match log with
  | none => pure .unknown
  | some bytes =>
    match decodeStrict bytes with
    | none => throw .unicodeDecodeError
    | some text => pure (classify (universalNewlines text))

/-- The commands from number `n` on, one for each key. -/
def sendkeys (commands : Nat → Command) (n : Nat) : List Str → Except Raised Unit
  | [] => pure ()
  | _ :: keys => do
    let _ ← (commands n).run
    sendkeys commands (n + 1) keys

def qemu_send_passphrase (commands : Nat → Command) (passphrase : Str) : Except Raised Unit :=
  sendkeys commands 0 (Luks.qemu_send_passphrase passphrase)

/-! ## The loops -/

/-- A poll of the search. -/
structure Inputs where
  log : Option Bytes
  command : Command
  file : Option Bytes

/-- A poll of the watch, with the second screendump of the success path. -/
structure BootInputs extends Inputs where
  finalCommand : Command
  finalFile : Option Bytes

variable (hexdigest : Bytes → { s : Str // s ≠ [] })

def search (commands : Nat → Command) (passphrase : Str) (s : Search) :
    List Inputs → Except Raised (Option Search)
  | [] => pure none
  | p :: polls => do
    let serial ← qemu_check_serial p.log
    let dump ← qemu_screendump hexdigest p.command p.file
    let t := s.poll ⟨serial, dump⟩
    if t.2 then
      qemu_send_passphrase commands passphrase
      pure (some t.1)
    else search commands passphrase t.1 polls

/-- The second screendump, if the log shows that the boot succeeded. -/
def BootInputs.takeFinal (p : BootInputs) (serial : Serial) (dump : Dump) : Except Raised Dump :=
  if serial = .gnomeInitialSetup ∨ serial = .gdm then
    qemu_screendump hexdigest p.finalCommand p.finalFile
  else pure dump

def boot (w : Watch) : List BootInputs → Except Raised Exit
  | [] => pure .timeout
  | p :: polls => do
    let serial ← qemu_check_serial p.log
    if serial = .emergency then pure .emergency
    else
      let dump ← qemu_screendump hexdigest p.command p.file
      let final ← p.takeFinal hexdigest serial dump
      let t := w.poll ⟨⟨serial, dump⟩, final⟩
      match t.2 with
      | some e => pure e
      | none => boot t.1 polls

/-- `run_qemu`, with its exit or what it raises. -/
def run_qemu (commands : Nat → Command) (passphrase : Str) (polls : List Inputs)
    (boots : List BootInputs) : Except Raised Exit := do
  let found ← search hexdigest commands passphrase .init polls
  match found with
  | none => pure .undetected
  | some s => boot hexdigest s.watch boots

/-! ## What the helpers return -/

/-- The program ends before the timeout. -/
def Command.Exits (c : Command) : Prop := ∃ returncode, c = .exited returncode

/-- The log cannot be opened, or holds the encoding of a text. -/
def Decodes (log : Option Bytes) : Prop := ∀ bytes ∈ log, ∃ text, bytes = encode text

/-- A pair is returned, and `(-1, '')` on any error. -/
def ScreendumpReturns (command : Command) (file : Option Bytes) : Prop :=
  ∃ d, qemu_screendump hexdigest command file = .ok d ∧
    (command ≠ .exited 0 ∨ ¬ Readable file → d = .failed)

/-- A classification is returned, and `''` when the log cannot be read. -/
def SerialReturns (log : Option Bytes) : Prop :=
  ∃ m, qemu_check_serial log = .ok m ∧ (log = none → m = .unknown)

/-- The classification of a log that can be read. -/
def serialOf (log : Option Bytes) : Serial :=
  ((log.bind decodeStrict).map fun text => classify (universalNewlines text)).getD .unknown

variable {hexdigest}

theorem screendump_of_exits {c : Command} (h : c.Exits) (file : Option Bytes) :
    qemu_screendump hexdigest c file = .ok (Luks.qemu_screendump hexdigest file) := by
  obtain ⟨returncode, rfl⟩ := h
  rfl

theorem screendump_of_not_exits (hexdigest : Bytes → { s : Str // s ≠ [] }) {c : Command}
    (h : ¬ c.Exits) (file : Option Bytes) :
    ∃ e, qemu_screendump hexdigest c file = .error e := by
  cases c with
  | exited returncode => exact absurd ⟨returncode, rfl⟩ h
  | timedOut => exact ⟨_, rfl⟩
  | notStarted => exact ⟨_, rfl⟩

theorem serial_of_decodes {log : Option Bytes} (h : Decodes log) :
    qemu_check_serial log = .ok (serialOf log) := by
  cases log with
  | none => rfl
  | some bytes =>
    obtain ⟨text, rfl⟩ := h bytes rfl
    simp only [qemu_check_serial, serialOf, Option.bind_some, decodeStrict_encode]
    rfl

theorem serial_of_not_decodes {log : Option Bytes} (h : ¬ Decodes log) :
    qemu_check_serial log = .error .unicodeDecodeError := by
  cases log with
  | none =>
    refine absurd ?_ h
    intro bytes hbytes
    cases hbytes
  | some bytes =>
    have hnone : decodeStrict bytes = none := by
      rw [← Option.not_isSome_iff_eq_none, decodeStrict_isSome_iff]
      rintro ⟨text, rfl⟩
      refine h ?_
      rintro _ ⟨⟩
      exact ⟨text, rfl⟩
    rw [qemu_check_serial, hnone]
    rfl

theorem screendumpReturns_iff (command : Command) (file : Option Bytes) :
    ScreendumpReturns hexdigest command file ↔
      ∃ returncode, command = .exited returncode ∧ (returncode = 0 ∨ ¬ Readable file) := by
  constructor
  · rintro ⟨d, hd, hfailed⟩
    by_cases hexits : command.Exits
    · obtain ⟨returncode, rfl⟩ := hexits
      refine ⟨returncode, rfl, ?_⟩
      by_contra hno
      push Not at hno
      have hd' := hfailed (.inl fun h => hno.1 (Command.exited.inj h))
      rw [screendump_of_exits ⟨returncode, rfl⟩, Except.ok.injEq] at hd
      rw [← hd, screendump_failed_iff] at hd'
      exact hd' hno.2
    · obtain ⟨e, he⟩ := screendump_of_not_exits hexdigest hexits file
      rw [he] at hd
      cases hd
  · rintro ⟨returncode, rfl, h⟩
    refine ⟨_, screendump_of_exits ⟨returncode, rfl⟩ file, ?_⟩
    rw [screendump_failed_iff]
    rintro (hcode | hfile)
    · exact h.resolve_left fun h0 => hcode (h0 ▸ rfl)
    · exact hfile

theorem serialReturns_iff (log : Option Bytes) : SerialReturns log ↔ Decodes log := by
  constructor
  · rintro ⟨m, hm, -⟩
    by_contra h
    rw [serial_of_not_decodes h] at hm
    cases hm
  · intro h
    refine ⟨_, serial_of_decodes h, ?_⟩
    rintro rfl
    rfl

theorem sendkeys_iff (commands : Nat → Command) (n : Nat) (keys : List Str) :
    sendkeys commands n keys = .ok () ↔
      ∀ i, n ≤ i → i < n + keys.length → (commands i).Exits := by
  induction keys generalizing n with
  | nil =>
    refine iff_of_true rfl ?_
    intro i hi hi'
    simp at hi'
    omega
  | cons key keys ih =>
    have hrest := ih (n + 1)
    by_cases hn : (commands n).Exits
    · obtain ⟨returncode, hcommand⟩ := hn
      have hstep : sendkeys commands n (key :: keys) = sendkeys commands (n + 1) keys := by
        rw [sendkeys, hcommand]
        rfl
      rw [hstep, hrest, List.length_cons]
      constructor
      · intro h i hi hi'
        rcases Nat.eq_or_lt_of_le hi with rfl | hlt
        · exact ⟨returncode, hcommand⟩
        · exact h i hlt (by omega)
      · intro h i hi hi'
        exact h i (by omega) (by omega)
    · refine iff_of_false ?_ fun h => hn (h n le_rfl (by rw [List.length_cons]; omega))
      rw [sendkeys]
      cases hcommand : commands n with
      | exited returncode => exact absurd ⟨returncode, hcommand⟩ hn
      | timedOut => exact fun h => nomatch h
      | notStarted => exact fun h => nomatch h

/-! ## Runs -/

variable (hexdigest)

/-- What the poll sees if nothing is raised. -/
def Inputs.poll (p : Inputs) : Poll :=
  ⟨serialOf p.log, Luks.qemu_screendump hexdigest p.file⟩

def BootInputs.poll (p : BootInputs) : BootPoll where
  toPoll := p.toInputs.poll hexdigest
  final :=
    if serialOf p.log = .gnomeInitialSetup ∨ serialOf p.log = .gdm then
      Luks.qemu_screendump hexdigest p.finalFile
    else Luks.qemu_screendump hexdigest p.file

variable {hexdigest}

/-- No helper that the poll calls raises. -/
def Inputs.Sound (p : Inputs) : Prop := Decodes p.log ∧ p.command.Exits

def BootInputs.Sound (p : BootInputs) : Prop :=
  Decodes p.log ∧ (serialOf p.log ≠ .emergency → p.command.Exits) ∧
    (serialOf p.log = .gnomeInitialSetup ∨ serialOf p.log = .gdm → p.finalCommand.Exits)

/-- Each `sendkey` command ends before its timeout. -/
def KeysExit (commands : Nat → Command) (passphrase : Str) : Prop :=
  ∀ i < (Luks.qemu_send_passphrase passphrase).length, (commands i).Exits

variable (hexdigest)

/-- The polls that the search makes are sound, and so is the passphrase if it is sent. -/
def SearchSound (commands : Nat → Command) (passphrase : Str) (s : Search)
    (polls : List Inputs) : Prop :=
  (∀ (k : Nat) (p : Inputs), k < (Luks.search s (polls.map (Inputs.poll hexdigest))).1.length →
    polls[k]? = some p → p.Sound) ∧
  ((Luks.search s (polls.map (Inputs.poll hexdigest))).2.isSome = true →
    KeysExit commands passphrase)

/-- The polls that the watch makes are sound. -/
def BootSound (w : Watch) (polls : List BootInputs) : Prop :=
  ∀ (k : Nat) (p : BootInputs),
    k < (Luks.boot w (polls.map (BootInputs.poll hexdigest))).1.length →
    polls[k]? = some p → p.Sound

variable {hexdigest}

theorem send_iff (commands : Nat → Command) (passphrase : Str) :
    qemu_send_passphrase commands passphrase = .ok () ↔ KeysExit commands passphrase := by
  rw [qemu_send_passphrase, sendkeys_iff]
  constructor
  · intro h i hi
    exact h i (Nat.zero_le i) (by omega)
  · intro h i _ hi
    exact h i (by omega)

theorem searchSound_cons (commands : Nat → Command) (passphrase : Str) (s : Search) (p : Inputs)
    (polls : List Inputs) :
    SearchSound hexdigest commands passphrase s (p :: polls) ↔
      p.Sound ∧ if (s.poll (p.poll hexdigest)).2 = true then KeysExit commands passphrase
        else SearchSound hexdigest commands passphrase (s.poll (p.poll hexdigest)).1 polls := by
  unfold SearchSound
  rw [List.map_cons, Luks.search]
  dsimp only
  split
  · constructor
    · rintro ⟨hpolls, hkeys⟩
      exact ⟨hpolls 0 p Nat.one_pos rfl, hkeys rfl⟩
    · rintro ⟨hp, hkeys⟩
      refine ⟨?_, fun _ => hkeys⟩
      intro k q hk hq
      obtain rfl : k = 0 := by simpa using hk
      obtain rfl := Option.some.inj hq
      exact hp
  · constructor
    · rintro ⟨hpolls, hkeys⟩
      refine ⟨hpolls 0 p (by simp) rfl, ?_, hkeys⟩
      intro k q hk hq
      exact hpolls (k + 1) q (by simpa using hk) hq
    · rintro ⟨hp, hpolls, hkeys⟩
      refine ⟨?_, hkeys⟩
      intro k q hk hq
      cases k with
      | zero =>
        obtain rfl := Option.some.inj hq
        exact hp
      | succ k => exact hpolls k q (by simpa using hk) hq

theorem bootSound_cons (w : Watch) (p : BootInputs) (polls : List BootInputs) :
    BootSound hexdigest w (p :: polls) ↔
      p.Sound ∧ ((w.poll (p.poll hexdigest)).2 = none →
        BootSound hexdigest (w.poll (p.poll hexdigest)).1 polls) := by
  unfold BootSound
  rw [List.map_cons, Luks.boot]
  cases hexit : (w.poll (p.poll hexdigest)).2 with
  | some e =>
    dsimp only
    constructor
    · intro h
      refine ⟨h 0 p Nat.one_pos rfl, ?_⟩
      intro hnone
      cases hnone
    · rintro ⟨hp, -⟩ k q hk hq
      obtain rfl : k = 0 := by simpa using hk
      obtain rfl := Option.some.inj hq
      exact hp
  | none =>
    dsimp only
    constructor
    · intro h
      refine ⟨h 0 p (by simp) rfl, fun _ => ?_⟩
      intro k q hk hq
      exact h (k + 1) q (by simpa using hk) hq
    · rintro ⟨hp, hpolls⟩ k q hk hq
      cases k with
      | zero =>
        obtain rfl := Option.some.inj hq
        exact hp
      | succ k => exact hpolls rfl k q (by simpa using hk) hq

/-! ## The search -/

theorem search_cons (commands : Nat → Command) (passphrase : Str) (s : Search) {p : Inputs}
    (hp : p.Sound) (polls : List Inputs) :
    search hexdigest commands passphrase s (p :: polls) =
      if (s.poll (p.poll hexdigest)).2 = true then
        (qemu_send_passphrase commands passphrase).map
          fun _ => some (s.poll (p.poll hexdigest)).1
      else search hexdigest commands passphrase (s.poll (p.poll hexdigest)).1 polls := by
  rw [search, serial_of_decodes hp.1, screendump_of_exits hp.2]
  change (if (s.poll (p.poll hexdigest)).2 = true then _ else _) = _
  split
  · cases qemu_send_passphrase commands passphrase <;> rfl
  · rfl

theorem search_of_not_sound (hexdigest : Bytes → { s : Str // s ≠ [] })
    (commands : Nat → Command) (passphrase : Str) (s : Search)
    {p : Inputs} (hp : ¬ p.Sound) (polls : List Inputs) :
    ∃ e, search hexdigest commands passphrase s (p :: polls) = .error e := by
  rw [search]
  by_cases hlog : Decodes p.log
  · obtain ⟨e, he⟩ := screendump_of_not_exits hexdigest
      (fun hcommand => hp ⟨hlog, hcommand⟩) p.file
    rw [serial_of_decodes hlog, he]
    exact ⟨e, rfl⟩
  · rw [serial_of_not_decodes hlog]
    exact ⟨_, rfl⟩

/-- The search raises at its first helper that does, and otherwise returns what it finds. -/
theorem search_ok_iff (commands : Nat → Command) (passphrase : Str) (s : Search)
    (polls : List Inputs) (found : Option Search) :
    search hexdigest commands passphrase s polls = .ok found ↔
      SearchSound hexdigest commands passphrase s polls ∧
        found = (Luks.search s (polls.map (Inputs.poll hexdigest))).2 := by
  induction polls generalizing s with
  | nil =>
    simp [search, SearchSound, Luks.search, pure, Except.pure, eq_comm]
  | cons p polls ih =>
    rw [searchSound_cons]
    by_cases hp : p.Sound
    · rw [search_cons commands passphrase s hp, List.map_cons, Luks.search]
      dsimp only
      split
      · rw [← send_iff]
        cases hsend : qemu_send_passphrase commands passphrase with
        | ok u => simp [Except.map, hp, eq_comm]
        | error e => simp [Except.map]
      · rw [ih]
        simp [hp]
    · obtain ⟨e, he⟩ := search_of_not_sound hexdigest commands passphrase s hp polls
      simp [he, hp]

/-! ## The boot -/

theorem takeFinal_of_sound {p : BootInputs} (hp : p.Sound) :
    p.takeFinal hexdigest (serialOf p.log) (Luks.qemu_screendump hexdigest p.file) =
      .ok (p.poll hexdigest).final := by
  rw [BootInputs.takeFinal, BootInputs.poll]
  split
  · rename_i hsuccess
    exact screendump_of_exits (hp.2.2 hsuccess) p.finalFile
  · rfl

theorem boot_cons (w : Watch) {p : BootInputs} (hp : p.Sound) (polls : List BootInputs) :
    boot hexdigest w (p :: polls) =
      ((w.poll (p.poll hexdigest)).2.map .ok).getD
        (boot hexdigest (w.poll (p.poll hexdigest)).1 polls) := by
  rw [boot, serial_of_decodes hp.1]
  change (if serialOf p.log = .emergency then _ else _) = _
  by_cases hemergency : serialOf p.log = .emergency
  · have hpoll : w.poll (p.poll hexdigest) = (w, some .emergency) := if_pos hemergency
    rw [if_pos hemergency, hpoll]
    rfl
  · rw [if_neg hemergency, screendump_of_exits (hp.2.1 hemergency)]
    change (p.takeFinal hexdigest (serialOf p.log) _ >>= _) = _
    rw [takeFinal_of_sound hp]
    change (match (w.poll (p.poll hexdigest)).2 with
      | some e => pure e
      | none => boot hexdigest (w.poll (p.poll hexdigest)).1 polls) = _
    cases (w.poll (p.poll hexdigest)).2 <;> rfl

theorem boot_of_not_sound (hexdigest : Bytes → { s : Str // s ≠ [] }) (w : Watch)
    {p : BootInputs} (hp : ¬ p.Sound) (polls : List BootInputs) :
    ∃ e, boot hexdigest w (p :: polls) = .error e := by
  rw [boot]
  by_cases hlog : Decodes p.log
  swap
  · rw [serial_of_not_decodes hlog]
    exact ⟨_, rfl⟩
  rw [serial_of_decodes hlog]
  change ∃ e, (if serialOf p.log = .emergency then _ else _) = _
  by_cases hemergency : serialOf p.log = .emergency
  · refine absurd ⟨hlog, fun h => absurd hemergency h, ?_⟩ hp
    rw [hemergency]
    rintro (h | h) <;> cases h
  rw [if_neg hemergency]
  by_cases hcommand : p.command.Exits
  swap
  · obtain ⟨e, he⟩ := screendump_of_not_exits hexdigest hcommand p.file
    rw [he]
    exact ⟨e, rfl⟩
  rw [screendump_of_exits hcommand]
  change ∃ e, (p.takeFinal hexdigest (serialOf p.log) _ >>= _) = _
  by_cases hsuccess : serialOf p.log = .gnomeInitialSetup ∨ serialOf p.log = .gdm
  · have hfinal : ¬ p.finalCommand.Exits := fun h => hp ⟨hlog, fun _ => hcommand, fun _ => h⟩
    obtain ⟨e, he⟩ := screendump_of_not_exits hexdigest hfinal p.finalFile
    rw [BootInputs.takeFinal, if_pos hsuccess, he]
    exact ⟨e, rfl⟩
  · exact absurd ⟨hlog, fun _ => hcommand, fun h => absurd h hsuccess⟩ hp

theorem boot_ok_iff (w : Watch) (polls : List BootInputs) (exit : Exit) :
    boot hexdigest w polls = .ok exit ↔
      BootSound hexdigest w polls ∧
        exit = (Luks.boot w (polls.map (BootInputs.poll hexdigest))).2 := by
  induction polls generalizing w with
  | nil => simp [boot, BootSound, Luks.boot, pure, Except.pure, eq_comm]
  | cons p polls ih =>
    rw [bootSound_cons]
    by_cases hp : p.Sound
    · rw [boot_cons w hp, List.map_cons, Luks.boot]
      cases hexit : (w.poll (p.poll hexdigest)).2 with
      | some e => simp [hp, eq_comm]
      | none => simp [hp, ih]
    · obtain ⟨e, he⟩ := boot_of_not_sound hexdigest w hp polls
      simp [he, hp]

/-! ## The run -/

theorem run_qemu_ok_iff (commands : Nat → Command) (passphrase : Str) (polls : List Inputs)
    (boots : List BootInputs) :
    (∃ exit, run_qemu hexdigest commands passphrase polls boots = .ok exit) ↔
      SearchSound hexdigest commands passphrase .init polls ∧
        ∀ s ∈ (Luks.search .init (polls.map (Inputs.poll hexdigest))).2,
          BootSound hexdigest s.watch boots := by
  rw [run_qemu]
  by_cases hsearch : SearchSound hexdigest commands passphrase .init polls
  · have hok := (search_ok_iff commands passphrase .init polls _).mpr ⟨hsearch, rfl⟩
    rw [hok]
    cases hfound : (Luks.search .init (polls.map (Inputs.poll hexdigest))).2 with
    | none => exact iff_of_true ⟨.undetected, rfl⟩ ⟨hsearch, by simp⟩
    | some s =>
      change (∃ exit, boot hexdigest s.watch boots = .ok exit) ↔ _
      simp [hsearch, boot_ok_iff]
  · refine iff_of_false ?_ fun h => hsearch h.1
    rintro ⟨exit, hexit⟩
    cases hraised : search hexdigest commands passphrase .init polls with
    | ok found => exact hsearch ((search_ok_iff commands passphrase .init polls found).mp hraised).1
    | error e =>
      rw [hraised] at hexit
      cases hexit

/-- **When failures are returned.** `qemu_screendump` returns, with `(-1, '')` on any error,
exactly if its command ends in time and a failed one leaves no file that can be read;
`qemu_check_serial` exactly if the bytes of a log that can be opened are those of a text. The
run ends without an exception exactly if that holds of each helper it calls. -/
theorem helpers_return_iff (hexdigest : Bytes → { s : Str // s ≠ [] }) :
    (∀ command file, ScreendumpReturns hexdigest command file ↔
      ∃ returncode, command = .exited returncode ∧ (returncode = 0 ∨ ¬ Readable file)) ∧
    (∀ log, SerialReturns log ↔ Decodes log) ∧
    (∀ commands passphrase polls boots,
      (∃ exit, run_qemu hexdigest commands passphrase polls boots = .ok exit) ↔
        SearchSound hexdigest commands passphrase .init polls ∧
          ∀ s ∈ (Luks.search .init (polls.map (Inputs.poll hexdigest))).2,
            BootSound hexdigest s.watch boots) :=
  ⟨screendumpReturns_iff, serialReturns_iff, run_qemu_ok_iff⟩

/-- The first byte of a character that is still being written. -/
theorem not_decodes_cut : ¬ Decodes (some [0xC3]) := by
  intro h
  obtain ⟨text, htext⟩ := h _ rfl
  cases text with
  | nil => cases htext
  | cons c text =>
    rw [encode_cons] at htext
    unfold String.utf8EncodeChar at htext
    dsimp only at htext
    split_ifs at htext with hascii
    · obtain ⟨hbyte, -⟩ := List.cons.inj htext
      have hnat := congrArg UInt8.toNat hbyte
      rw [UInt8.toNat_ofNat', Nat.mod_eq_of_lt (by omega)] at hnat
      have h195 : (0xC3 : UInt8).toNat = 195 := rfl
      omega
    all_goals
      have hlength := congrArg List.length htext
      simp at hlength

/-- A log that is cut within a character, and a monitor that does not answer in time. -/
theorem run_ends_by_exception : (¬ ∀ log, SerialReturns log) ∧
    ¬ ∀ commands passphrase polls boots,
      ∃ exit, run_qemu digest commands passphrase polls boots = .ok exit := by
  refine ⟨?_, ?_⟩
  · intro h
    exact not_decodes_cut ((serialReturns_iff _).mp (h (some [0xC3])))
  · intro h
    obtain ⟨exit, hexit⟩ := h (fun _ => .exited 0) [] [⟨none, .timedOut, none⟩] []
    cases hexit

end XfceLinux.Luks.Raising
