import XfceLinux.Luks.Libvirt
import XfceLinux.Luks.Verdict
import XfceLinux.Luks.WaitLive

/-!
# Captures that failed

A capture that failed is reported as the size 0, or as `(-1, '')`. The search for the prompt
and the wait for the live desktop check for the latter. `run_libvirt` does not know the size
0 from that of a blank screen, and the watch of the boot compares the empty hash like any
other one: it differs from the hash behind the passphrase, and two of them in a row are
equal (`failed_capture_iff`).
-/

namespace XfceLinux.Luks

open Lib Lib.Text

/-! ## The search and the live desktop -/

/-- The variables before the iteration `k` of the search. -/
def searchAt (polls : List Poll) (k : Nat) : Search :=
  Loop.behind Search.poll .init (polls.take k)

/-- The variables before the iteration `k` of the wait for the live desktop. -/
def liveAt (polls : List LivePoll) (k : Nat) : Live :=
  Loop.behind Live.poll .init (polls.take k)

/-- The capture of the poll counts for nothing. -/
structure SearchSpared (s : Search) (p : Poll) : Prop where
  /-- Only the serial log can call for the passphrase. -/
  sent : (s.poll p).2 = true → p.serial = .plymouth
  had_content : (s.poll p).1.had_content = s.had_content
  stable_count : (s.poll p).1.stable_count ≤ s.stable_count

structure LiveSpared (s : Live) (p : LivePoll) : Prop where
  returned : (s.poll p).2 = false
  stable_count : (s.poll p).1.stable_count = 0
  screenshot : (s.poll p).1.screenshot = s.screenshot

theorem searchSpared_of_failed (s : Search) {p : Poll} (hp : ¬ p.dump.Ok) : SearchSpared s p := by
  have hfailed : p.dump.brightness < 0 := not_le.mp hp
  by_cases hserial : p.serial = .plymouth
  · have hpoll : s.poll p = (s, true) := if_pos hserial
    refine ⟨fun _ => hserial, ?_, ?_⟩
    · rw [hpoll]
    · rw [hpoll]
  · have hpoll : s.poll p = ({ s with stable_count := 0 }, false) := by
      rw [Search.poll, if_neg hserial, if_pos hfailed]
    refine ⟨?_, ?_, ?_⟩
    · rw [hpoll]
      intro hsent
      cases hsent
    · rw [hpoll]
    · rw [hpoll]
      exact Nat.zero_le _

theorem liveSpared_of_failed (s : Live) {p : LivePoll} (hp : ¬ p.dump.Ok) : LiveSpared s p := by
  refine ⟨?_, ?_, ?_⟩ <;> rw [s.poll_failed hp]

/-! ## The watch of the boot -/

/-- An iteration of the watch, with whether it ends the script. -/
def Watch.step (w : Watch) (b : BootPoll) : Watch × Bool := ((w.poll b).1, (w.poll b).2.isSome)

/-- The variables before the iteration `k` of the watch. -/
def watchAt (s : Search) (boots : List BootPoll) (k : Nat) : Watch :=
  Loop.behind Watch.step s.watch (boots.take k)

structure WatchSpared (w : Watch) (b : BootPoll) : Prop where
  screen_changed : (w.poll b).1.screen_changed = w.screen_changed
  gnome_stable_count : (w.poll b).1.gnome_stable_count ≤ w.gnome_stable_count
  verdict : ∀ bright, (w.poll b).2 ≠ some (.framebuffer bright)

/-- No capture of the watch that failed is taken for a frame. An iteration that finds the
emergency shell in the serial log makes no capture. -/
def BootSpares (s : Search) (boots : List BootPoll) : Prop :=
  ∀ (k : Nat) (b : BootPoll), k < (boot s.watch boots).1.length → boots[k]? = some b →
    ¬ b.dump.Ok → b.serial ≠ .emergency → WatchSpared (watchAt s boots k) b

theorem length_boot (w : Watch) (boots : List BootPoll) :
    (boot w boots).1.length = (Loop.states Watch.step w boots).length := by
  induction boots generalizing w with
  | nil => rfl
  | cons b boots ih =>
    rw [boot, Loop.states]
    cases hexit : (w.poll b).2 with
    | none =>
      dsimp only
      rw [if_neg (by simp [Watch.step, hexit]), List.length_cons, List.length_cons, ih]
      rfl
    | some e =>
      dsimp only
      rw [if_pos (by simp [Watch.step, hexit])]
      rfl

theorem Dump.md5_of_failed {d : Dump} (h : ¬ d.Ok) : d.md5 = [] := by
  rcases d.valid with ⟨-, hmd5⟩ | ⟨hb, -⟩
  · exact hmd5
  · exact absurd hb h

/-- The variables that an iteration compares captures with. -/
theorem poll_counts (w : Watch) {b : BootPoll} (h : b.serial.Quiet) :
    (w.poll b).1.screen_changed = (w.seen b.dump).screen_changed ∧
      (w.poll b).1.gnome_stable_count = (w.seen b.dump).gnome_stable_count := by
  rw [w.poll_quiet h]
  split <;> exact ⟨rfl, rfl⟩

/-- A marker in the serial log ends the watch, whatever was captured. -/
theorem poll_confirmed (w : Watch) {b : BootPoll} (h : ¬ b.serial.Quiet)
    (hserial : b.serial ≠ .emergency) :
    (w.poll b).1.screen_changed = (w.seen b.dump).screen_changed ∧
      (w.poll b).1.gnome_stable_count = w.gnome_stable_count ∧
      ∃ e, (w.poll b).2 = some e ∧ ∀ bright, e ≠ .framebuffer bright := by
  have hCases : b.serial = .gnomeInitialSetup ∨ b.serial = .gdm := by
    unfold Serial.Quiet at h
    tauto
  rcases hCases with hb | hb
  · refine ⟨by simp [Watch.poll, hb, Watch.seen], by simp [Watch.poll, hb],
      .gnomeInitialSetup, by simp [Watch.poll, hb], by simp⟩
  · refine ⟨by simp [Watch.poll, hb, Watch.seen], by simp [Watch.poll, hb], .gdm,
      by simp [Watch.poll, hb], by simp⟩

theorem changed_spared_iff (w : Watch) {d : Dump} (hd : ¬ d.Ok) :
    (w.seen d).screen_changed = w.screen_changed ↔
      w.screen_changed = true ∨ w.passphrase_hash = [] := by
  simp only [Watch.seen, Dump.md5_of_failed hd]
  cases w.screen_changed with
  | true => simp
  | false =>
    rw [Bool.false_or, decide_eq_false_iff_not, not_not]
    constructor
    · exact fun hnil => .inr hnil.symm
    · exact fun hnil => (hnil.resolve_left Bool.false_ne_true).symm

/-- **What a capture that failed does to the watch.** It counts for nothing when the screen
has changed before or there is no hash to compare with, and, if the serial log is quiet, the
capture before it did not fail. -/
theorem watchSpared_iff (w : Watch) {b : BootPoll} (hb : ¬ b.dump.Ok)
    (hserial : b.serial ≠ .emergency) :
    WatchSpared w b ↔
      (w.screen_changed = true ∨ w.passphrase_hash = []) ∧
        (b.serial.Quiet → w.prev_hash ≠ []) := by
  have hchanged := changed_spared_iff w hb
  by_cases hquiet : b.serial.Quiet
  · obtain ⟨hscreen, hcount⟩ := poll_counts w hquiet
    have hstable : (w.seen b.dump).gnome_stable_count =
        if [] = w.prev_hash then w.gnome_stable_count + 1 else 0 := by
      simp only [Watch.seen, Dump.md5_of_failed hb]
    constructor
    · rintro ⟨hs, hc, -⟩
      rw [hscreen, hchanged] at hs
      refine ⟨hs, fun _ hprev => ?_⟩
      rw [hcount, hstable, if_pos hprev.symm] at hc
      omega
    · rintro ⟨hs, hprev⟩
      rw [if_neg (Ne.symm (hprev hquiet))] at hstable
      refine ⟨by rw [hscreen, hchanged]; exact hs, by rw [hcount, hstable]; omega, ?_⟩
      intro bright
      rw [w.poll_quiet hquiet, if_neg]
      · simp
      · rw [hstable]
        simp [GNOME_STABLE_POLLS]
  · obtain ⟨hscreen, hcount, e, he, hframe⟩ := poll_confirmed w hquiet hserial
    constructor
    · rintro ⟨hs, -, -⟩
      rw [hscreen, hchanged] at hs
      exact ⟨hs, fun h => absurd h hquiet⟩
    · rintro ⟨hs, -⟩
      refine ⟨by rw [hscreen, hchanged]; exact hs, hcount.le, ?_⟩
      intro bright hverdict
      rw [he] at hverdict
      exact hframe bright (Option.some.inj hverdict)

/-! ## What the variables stand for -/

/-- The hash of the latest capture, or the one behind the passphrase. -/
def lastHash (reference : Str) (seen : List BootPoll) : Str :=
  (seen.getLast?.map (·.dump.md5)).getD reference

/-- The variables of the watch behind the polls `seen`, none of which ended it. -/
structure WatchTracks (reference : Str) (seen : List BootPoll) (w : Watch) : Prop where
  passphrase_hash : w.passphrase_hash = reference
  screen_changed : w.screen_changed = true ↔ ∃ b ∈ seen, b.dump.md5 ≠ reference
  prev_hash : w.prev_hash = lastHash reference seen

theorem watchTracks_init (s : Search) : WatchTracks s.prev_hash [] s.watch where
  passphrase_hash := rfl
  screen_changed := by simp [Search.watch]
  prev_hash := rfl

theorem WatchTracks.step {reference : Str} {seen : List BootPoll} {w : Watch}
    (hw : WatchTracks reference seen w) {b : BootPoll} (hb : (w.step b).2 = false) :
    WatchTracks reference (seen ++ [b]) (w.step b).1 := by
  have hnone : (w.poll b).2 = none := by simpa [Watch.step] using hb
  have hquiet : b.serial.Quiet := by
    by_contra hquiet
    by_cases hserial : b.serial = .emergency
    · simp [Watch.poll, hserial] at hnone
    · obtain ⟨-, -, e, he, -⟩ := poll_confirmed w hquiet hserial
      rw [he] at hnone
      cases hnone
  have hnext : (w.step b).1 = w.next b.dump := by
    have hpoll := w.poll_quiet hquiet
    split at hpoll
    · rw [hpoll] at hnone
      cases hnone
    · rw [Watch.step, hpoll]
      rfl
  rw [hnext]
  refine ⟨hw.passphrase_hash, ?_, ?_⟩
  · simp only [Watch.next, Watch.seen, Bool.or_eq_true, hw.screen_changed, decide_eq_true_eq,
      hw.passphrase_hash, List.mem_append, List.mem_singleton]
    constructor
    · rintro (⟨c, hc, hne⟩ | hne)
      · exact ⟨c, .inl hc, hne⟩
      · exact ⟨b, .inr rfl, hne⟩
    · rintro ⟨c, hc | rfl, hne⟩
      · exact .inl ⟨c, hc, hne⟩
      · exact .inr hne
  · simp [Watch.next, lastHash]

/-- The variables before an iteration that is made. -/
theorem watchTracks_at (s : Search) {boots : List BootPoll} {k : Nat}
    (hk : k < (boot s.watch boots).1.length) :
    WatchTracks s.prev_hash (boots.take k) (watchAt s boots k) := by
  rw [length_boot, Loop.lt_length_states_iff] at hk
  obtain ⟨hlt, hopen⟩ := hk
  induction k with
  | zero => exact watchTracks_init s
  | succ k ih =>
    have hbefore := ih (by omega) fun j hj => hopen j (by omega)
    obtain ⟨b, hb⟩ : ∃ b, boots[k]? = some b :=
      ⟨boots[k], List.getElem?_eq_getElem (by omega)⟩
    have hstep : (Watch.step (watchAt s boots k) b).2 = false := by
      rw [← Bool.not_eq_true]
      intro hends
      exact hopen k (Nat.lt_succ_self k) ⟨b, hb, hends⟩
    rw [watchAt, Loop.behind_take_succ hb, List.take_add_one, hb]
    exact hbefore.step hstep

/-! ## Every poll history -/

/-- **When a capture that failed is not taken for a frame.** The search and the wait for the
live desktop never do. `run_libvirt` does not if each failure comes before any boot content or
after the passphrase. The watch of the boot does not if before each failure the screen has
changed, or there is no hash to compare with, and, where the serial log is quiet, the hash
before it is not empty. -/
theorem failed_capture_iff (shots : List Screenshot) (ips : List Str) (polls : List Poll)
    (boots : List BootPoll) (lives : List LivePoll) :
    (LibvirtSpares shots ips ↔
      ∀ (k : Nat) (p : Screenshot), shots[k]? = some p → p.Failed → ContentBefore shots k →
        ∃ j < k, ContentBefore shots j ∧
          ∃ q, shots[j]? = some q ∧ virsh_screenshot_size q ≤ 4096) ∧
    (∀ (k : Nat) (p : Poll), polls[k]? = some p → ¬ p.dump.Ok →
      SearchSpared (searchAt polls k) p) ∧
    (∀ s, (search .init polls).2 = some s → (BootSpares s boots ↔
      ∀ (k : Nat) (b : BootPoll), k < (run_qemu polls boots).boot.length → boots[k]? = some b →
        ¬ b.dump.Ok → b.serial ≠ .emergency →
        ((∃ c ∈ boots.take k, c.dump.md5 ≠ s.prev_hash) ∨ s.prev_hash = []) ∧
          (b.serial.Quiet → lastHash s.prev_hash (boots.take k) ≠ []))) ∧
    (∀ (k : Nat) (p : LivePoll), lives[k]? = some p → ¬ p.dump.Ok →
      LiveSpared (liveAt lives k) p) := by
  refine ⟨libvirt_spares_iff shots ips, ?_, ?_, ?_⟩
  · intro k p _ hp
    exact searchSpared_of_failed _ hp
  · intro s hs
    have hboot : (run_qemu polls boots).boot = (boot s.watch boots).1 := by
      simp [run_qemu, hs]
    rw [hboot]
    apply forall₅_congr
    intro k b hk _ hb
    apply forall_congr'
    intro hserial
    have htracks := watchTracks_at s hk
    rw [watchSpared_iff _ hb hserial, htracks.screen_changed, htracks.passphrase_hash,
      htracks.prev_hash]
  · intro k p _ hp
    exact liveSpared_of_failed _ hp

/-- Boot content, and then a screenshot that failed. -/
def lostScreenshot : List Screenshot := [⟨0, some 5000⟩, ⟨1, none⟩]

/-- The prompt, found by its stability. -/
def promptStill : List Poll := List.replicate 3 ⟨.unknown, dim⟩

/-- The passphrase is typed blindly, and the screen has changed without a capture. -/
theorem failed_capture_taken_for_frame :
    ¬ (∀ polls ips, LibvirtSpares polls ips) ∧
    ¬ ∀ polls boots s, (search .init polls).2 = some s → BootSpares s boots := by
  constructor
  · intro h
    have hsent : (run_libvirt lostScreenshot []).sent = true ∧
        (run_libvirt lostScreenshot []).polls = 1 + 1 := by decide
    exact h lostScreenshot [] 1 ⟨1, none⟩ rfl (.inr rfl) hsent
  · intro h
    have hfound : (search .init promptStill).2 = some ⟨true, 2, ['a']⟩ := by decide +kernel
    have hfailed : ¬ Dump.failed.Ok := by decide +kernel
    have hquiet : Serial.unknown.Quiet := by decide
    have hspared := h promptStill [⟨⟨.unknown, .failed⟩, .failed⟩] _ hfound 0 _
      (by decide +kernel) rfl hfailed (by decide)
    rw [watchSpared_iff _ hfailed (by decide)] at hspared
    exact absurd hspared.1 (by decide)

end XfceLinux.Luks
