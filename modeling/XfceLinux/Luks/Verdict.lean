import XfceLinux.Luks.Prompt

/-!
# What the framebuffer verdict rests on

After the passphrase, `screen_changed` compares each capture with `passphrase_hash`, which
is the `prev_hash` of the search. The iteration that finds the prompt by hash stability has
stored its own capture there; the one that reads it off the serial log has not, so the hash
is that of an older capture or empty, and a screen that never changes is taken for a
changed one (`framebuffer_verdict_iff`).
-/

namespace XfceLinux.Luks

open Lib Lib.Text

/-- The serial log does not end the watch. -/
def Serial.Quiet (s : Serial) : Prop :=
  s ≠ .emergency ∧ s ≠ .gnomeInitialSetup ∧ s ≠ .gdm

instance (s : Serial) : Decidable s.Quiet :=
  inferInstanceAs (Decidable (s ≠ .emergency ∧ s ≠ .gnomeInitialSetup ∧ s ≠ .gdm))

/-- Every screendump of the run succeeded. -/
def AllOk (r : Report) : Prop := ∀ d ∈ captures (r.search ++ r.boot), d.Ok

instance (r : Report) : Decidable (AllOk r) := List.decidableBAll (fun d : Dump => d.Ok) _

/-- If the run ends with a framebuffer verdict, a capture after the passphrase differs from
the last one before it. -/
def VerdictAfterChange (r : Report) : Prop :=
  ∀ bright, r.exit = .framebuffer bright →
    ∃ last, (captures r.search).getLast? = some last ∧
      ∃ d ∈ captures r.boot, d.md5 ≠ last.md5

/-- The first two polls are quiet and capture the hash `h`. -/
def Still (boots : List BootPoll) (h : Str) : Prop :=
  ∃ b₁ b₂ rest, boots = b₁ :: b₂ :: rest ∧ b₁.serial.Quiet ∧ b₁.dump.md5 = h ∧
    b₂.serial.Quiet ∧ b₂.dump.md5 = h

/-- The serial log shows the prompt first, at a poll whose capture is not the one that
`prev_hash` remembers, and the first two polls after the passphrase capture it again. -/
def StaleReference (polls : List Poll) (boots : List BootPoll) : Prop :=
  ∃ k p, polls[k]? = some p ∧ p.serial = .plymouth ∧ (∀ j < k, ¬ Fires polls j) ∧
    ¬ LastContent polls k p.dump.md5 ∧ Still boots p.dump.md5

/-! ## Captures -/

theorem captures_append (xs ys : List (List Call)) :
    captures (xs ++ ys) = captures xs ++ captures ys := by
  simp [captures]

theorem captures_cons (x : List Call) (xs : List (List Call)) :
    captures (x :: xs) = captures [x] ++ captures xs :=
  captures_append [x] xs

theorem captures_searchCalls (p : Poll) (sent : Bool) :
    captures [searchCalls p sent] = [p.dump] := by
  cases sent <;> rfl

theorem captures_bootCalls {p : BootPoll} (h : p.serial.Quiet) :
    captures [bootCalls p] = [p.dump] := by
  obtain ⟨hemergency, hsetup, hgdm⟩ := h
  unfold bootCalls
  split <;> simp_all [captures]

/-! ## One poll of the watch -/

/-- The variables behind the comparison of a capture. -/
def Watch.seen (w : Watch) (d : Dump) : Watch :=
  { w with
    screen_changed := w.screen_changed || decide (d.md5 ≠ w.passphrase_hash)
    gnome_stable_count := if d.md5 = w.prev_hash then w.gnome_stable_count + 1 else 0 }

theorem Watch.poll_quiet (w : Watch) {p : BootPoll} (h : p.serial.Quiet) :
    w.poll p =
      if (w.seen p.dump).screen_changed ∧
          GNOME_STABLE_POLLS ≤ (w.seen p.dump).gnome_stable_count then
        (w.seen p.dump, some (.framebuffer (GNOME_THRESHOLD < p.dump.brightness)))
      else ({ w.seen p.dump with prev_hash := p.dump.md5 }, none) := by
  obtain ⟨hemergency, hsetup, hgdm⟩ := h
  unfold Watch.poll
  simp only [hemergency, hsetup, hgdm, if_false]
  rfl

theorem mem_captures_boot (w : Watch) {p : BootPoll} (hp : p.serial.Quiet)
    (boots : List BootPoll) : p.dump ∈ captures (boot w (p :: boots)).1 := by
  unfold boot
  dsimp only
  split <;> rw [captures_cons, captures_bootCalls hp] <;> simp

/-- The variables behind a poll that does not end the watch. -/
def Watch.next (w : Watch) (d : Dump) : Watch := { w.seen d with prev_hash := d.md5 }

theorem boot_cons_of_open (w : Watch) {p : BootPoll} (hp : p.serial.Quiet)
    (hopen : ¬ ((w.seen p.dump).screen_changed ∧
      GNOME_STABLE_POLLS ≤ (w.seen p.dump).gnome_stable_count)) (boots : List BootPoll) :
    boot w (p :: boots) =
      (bootCalls p :: (boot (w.next p.dump) boots).1, (boot (w.next p.dump) boots).2) := by
  have hpoll := w.poll_quiet hp
  rw [if_neg hopen] at hpoll
  simp only [boot, hpoll]
  rfl

theorem boot_of_not_quiet (w : Watch) {p : BootPoll} (h : ¬ p.serial.Quiet)
    (boots : List BootPoll) (bright : Bool) : (boot w (p :: boots)).2 ≠ .framebuffer bright := by
  have hCases : p.serial = .emergency ∨ p.serial = .gnomeInitialSetup ∨ p.serial = .gdm := by
    unfold Serial.Quiet at h
    tauto
  rcases hCases with hp | hp | hp <;> simp [boot, Watch.poll, hp]

/-- While every capture is the reference, no change is seen. -/
theorem boot_of_unchanged (w : Watch) (hw : w.screen_changed = false) (boots : List BootPoll)
    (hsame : ∀ d ∈ captures (boot w boots).1, d.md5 = w.passphrase_hash) (bright : Bool) :
    (boot w boots).2 ≠ .framebuffer bright := by
  induction boots generalizing w with
  | nil => simp [boot]
  | cons p boots ih =>
    by_cases hp : p.serial.Quiet
    · have hmd5 : p.dump.md5 = w.passphrase_hash := hsame _ (mem_captures_boot w hp boots)
      have hseen : (w.seen p.dump).screen_changed = false := by
        simp [Watch.seen, hw, hmd5]
      rw [boot_cons_of_open w hp (by simp [hseen])] at hsame ⊢
      apply ih (w.next p.dump) hseen
      intro d hd
      apply hsame
      rw [captures_cons]
      exact List.mem_append_right _ hd
    · exact boot_of_not_quiet w hp boots bright

/-- A first capture that differs from the remembered hash starts the count anew. -/
theorem boot_cons_of_ne (w : Watch) {p : BootPoll} (hp : p.serial.Quiet)
    (hne : p.dump.md5 ≠ w.prev_hash) (boots : List BootPoll) :
    boot w (p :: boots) =
      (bootCalls p :: (boot (w.next p.dump) boots).1, (boot (w.next p.dump) boots).2) := by
  have hcount : (w.seen p.dump).gnome_stable_count = 0 := by simp [Watch.seen, hne]
  exact boot_cons_of_open w hp (by simp [hcount, GNOME_STABLE_POLLS]) boots

/-- A capture that repeats the one before, on a changed screen, ends the watch. -/
theorem boot_cons_of_eq (w : Watch) {p : BootPoll} (hp : p.serial.Quiet)
    (hw : w.screen_changed = true) (heq : p.dump.md5 = w.prev_hash) (boots : List BootPoll) :
    boot w (p :: boots) =
      ([bootCalls p], .framebuffer (GNOME_THRESHOLD < p.dump.brightness)) := by
  have hpoll := w.poll_quiet hp
  have hcount : (w.seen p.dump).gnome_stable_count = w.gnome_stable_count + 1 := by
    simp [Watch.seen, heq]
  have hchanged : (w.seen p.dump).screen_changed = true := by simp [Watch.seen, hw]
  rw [if_pos ⟨hchanged, by rw [hcount, GNOME_STABLE_POLLS]; omega⟩] at hpoll
  simp only [boot, hpoll]

/-! ## The watch against one hash -/

/-- From the variables with which the watch begins, a framebuffer verdict without another
hash than `h` is exactly what two still polls lead to, if the reference is not `h`. -/
theorem boot_watch_iff (s : Search) (boots : List BootPoll) (h : Str) :
    ((∃ bright, (boot s.watch boots).2 = .framebuffer bright) ∧
      ∀ d ∈ captures (boot s.watch boots).1, d.md5 = h) ↔
      s.prev_hash ≠ h ∧ Still boots h := by
  constructor
  · rintro ⟨⟨bright, hexit⟩, hsame⟩
    have hne : s.prev_hash ≠ h := by
      rintro rfl
      exact boot_of_unchanged s.watch rfl boots hsame bright hexit
    refine ⟨hne, ?_⟩
    cases boots with
    | nil => simp [boot] at hexit
    | cons b₁ boots =>
      have hb₁ : b₁.serial.Quiet := by
        by_contra hb₁
        exact boot_of_not_quiet _ hb₁ boots bright hexit
      have hmd5₁ : b₁.dump.md5 = h := hsame _ (mem_captures_boot _ hb₁ boots)
      have hprev : b₁.dump.md5 ≠ s.watch.prev_hash := hmd5₁ ▸ Ne.symm hne
      rw [boot_cons_of_ne _ hb₁ hprev] at hexit hsame
      cases boots with
      | nil => simp [boot] at hexit
      | cons b₂ rest =>
        have hb₂ : b₂.serial.Quiet := by
          by_contra hb₂
          exact boot_of_not_quiet _ hb₂ rest bright hexit
        refine ⟨b₁, b₂, rest, rfl, hb₁, hmd5₁, hb₂, ?_⟩
        apply hsame
        rw [captures_cons]
        exact List.mem_append_right _ (mem_captures_boot _ hb₂ rest)
  · rintro ⟨hne, b₁, b₂, rest, rfl, hb₁, hmd5₁, hb₂, hmd5₂⟩
    have hprev : b₁.dump.md5 ≠ s.watch.prev_hash := hmd5₁ ▸ Ne.symm hne
    have hchanged : (s.watch.next b₁.dump).screen_changed = true := by
      simp only [Watch.next, Watch.seen, Search.watch, Bool.false_or]
      exact decide_eq_true hprev
    rw [boot_cons_of_ne _ hb₁ hprev, boot_cons_of_eq _ hb₂ hchanged (hmd5₂.trans hmd5₁.symm)]
    refine ⟨⟨_, rfl⟩, ?_⟩
    rw [captures_cons, captures_bootCalls hb₁, captures_bootCalls hb₂]
    simp [hmd5₁, hmd5₂]

/-! ## The whole run -/

/-- The reference differs from the last capture before the passphrase exactly when the
prompt was read off the serial log while another capture was remembered. -/
theorem reference_ne_iff {quiet : List Poll} {t : Search} (ht : Tracks quiet t) {p : Poll}
    (hok : p.dump.Ok) (hfires : Fires (quiet ++ [p]) quiet.length) :
    (t.poll p).1.prev_hash ≠ p.dump.md5 ↔
      p.serial = .plymouth ∧ ¬ LastContent quiet quiet.length p.dump.md5 := by
  by_cases hp : p.serial = .plymouth
  · rw [ht.prev_hash _ (p.dump.md5_ne_nil hok)]
    simp [Search.poll, hp]
  · have hext : Extends quiet p := ((not_plymouth_snoc_fires_iff ht hp).mp hfires).1
    rw [poll_of_extends ht hp hext]
    simp [Search.counted, hp]

/-- What `StaleReference` says of a run that types the passphrase at the poll `p`. -/
theorem staleReference_iff {polls quiet rest : List Poll} {p : Poll} {t : Search}
    (hsplit : polls = quiet ++ p :: rest) (hfirst : ∀ j < quiet.length, ¬ Fires polls j)
    (hfires : Fires polls quiet.length) (htracks : Tracks quiet t) (hpok : p.dump.Ok)
    (boots : List BootPoll) :
    StaleReference polls boots ↔
      (t.poll p).1.prev_hash ≠ p.dump.md5 ∧ Still boots p.dump.md5 := by
  have hfires' : Fires (quiet ++ [p]) quiet.length := by
    rw [hsplit, List.append_cons, fires_append (by simp)] at hfires
    exact hfires
  have hk : polls[quiet.length]? = some p := by simp [hsplit]
  have hprev : LastContent polls quiet.length p.dump.md5 ↔
      LastContent quiet quiet.length p.dump.md5 := by
    rw [hsplit, lastContent_append le_rfl]
  rw [reference_ne_iff htracks hpok hfires', ← hprev]
  constructor
  · rintro ⟨k, q, hq, hserial, hbefore, hne, hstill⟩
    obtain rfl : k = quiet.length :=
      Loop.first_unique (.inl ⟨q, hq, hserial⟩) hbefore hfires hfirst
    obtain rfl : p = q := Option.some.inj (hk.symm.trans hq)
    exact ⟨⟨hserial, hne⟩, hstill⟩
  · rintro ⟨⟨hserial, hne⟩, hstill⟩
    exact ⟨quiet.length, p, hk, hserial, hfirst, hne, hstill⟩

/-- **When a framebuffer verdict needs a change of screen.** In a run whose screendumps all
succeed it does, unless the prompt was read off the serial log while `prev_hash` was not the
hash of that poll's capture, and the first two polls after the passphrase repeat it. -/
theorem framebuffer_verdict_iff (polls : List Poll) (boots : List BootPoll)
    (hok : AllOk (run_qemu polls boots)) :
    VerdictAfterChange (run_qemu polls boots) ↔ ¬ StaleReference polls boots := by
  cases tracks_init.searches polls with
  | expired hnever hcalls =>
    have hexit : (run_qemu polls boots).exit = .undetected := by simp [run_qemu, hcalls]
    constructor
    · rintro - ⟨k, p, hk, hp, -⟩
      exact hnever k (Nat.zero_le k) (.inl ⟨p, hk, hp⟩)
    · intro _ bright hbright
      rw [hexit] at hbright
      cases hbright
  | sent quiet p rest t hsplit hfirst hfires htracks hcalls =>
    simp only [List.nil_append, List.length_nil, Nat.zero_add] at hfirst hfires htracks
    have hrun : run_qemu polls boots =
        ⟨quiet.map (fun p => searchCalls p false) ++ [searchCalls p true],
          (boot (t.poll p).1.watch boots).1, (boot (t.poll p).1.watch boots).2⟩ := by
      simp [run_qemu, hcalls]
    rw [hrun] at hok ⊢
    have hlast : (captures (quiet.map (fun p => searchCalls p false) ++
        [searchCalls p true])).getLast? = some p.dump := by
      rw [captures_append, captures_searchCalls, List.getLast?_concat]
    have hpok : p.dump.Ok := by
      apply hok
      rw [captures_append, captures_append, captures_searchCalls]
      simp
    rw [staleReference_iff hsplit (fun j hj => hfirst j (Nat.zero_le j) hj) hfires htracks hpok,
      ← boot_watch_iff]
    constructor
    · rintro hverdict ⟨⟨bright, hexit⟩, hsame⟩
      obtain ⟨last, hlast', d, hd, hne⟩ := hverdict bright hexit
      obtain rfl : p.dump = last := Option.some.inj (hlast.symm.trans hlast')
      exact hne (hsame d hd)
    · intro hnot bright hexit
      refine ⟨p.dump, hlast, ?_⟩
      by_contra hsame
      push Not at hsame
      exact hnot ⟨⟨bright, hexit⟩, hsame⟩

/-- A dim capture whose digest is `a`. -/
def dim : Dump := ⟨1, ['a'], .inr ⟨by norm_num, by simp⟩⟩

/-- The prompt on the serial log in the first poll. -/
def promptOnSerial : List Poll := [⟨.plymouth, dim⟩]

/-- A display that stays as it was when the passphrase was typed. -/
def frozen : List BootPoll := [⟨⟨.unknown, dim⟩, dim⟩, ⟨⟨.unknown, dim⟩, dim⟩]

theorem framebuffer_verdict_iff_frozen :
    VerdictAfterChange (run_qemu promptOnSerial frozen) ↔
      ¬ StaleReference promptOnSerial frozen :=
  framebuffer_verdict_iff promptOnSerial frozen (by decide +kernel)

/-- The emergency shell is suspected although the screen never changed. -/
theorem framebuffer_verdict_without_change :
    ¬ ∀ (polls : List Poll) (boots : List BootPoll), AllOk (run_qemu polls boots) →
      VerdictAfterChange (run_qemu polls boots) := by
  intro h
  have hrun : (run_qemu promptOnSerial frozen).exit = .framebuffer false ∧
      captures (run_qemu promptOnSerial frozen).search = [dim] ∧
      captures (run_qemu promptOnSerial frozen).boot = [dim, dim] := by decide +kernel
  obtain ⟨hexit, hsearch, hboot⟩ := hrun
  obtain ⟨last, hlast, d, hd, hne⟩ :=
    h promptOnSerial frozen (by decide +kernel) false hexit
  rw [hsearch] at hlast
  rw [hboot] at hd
  obtain rfl : dim = last := Option.some.inj hlast
  obtain rfl : d = dim := by simpa using hd
  exact hne rfl

end XfceLinux.Luks
