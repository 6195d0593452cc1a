import XfceLinux.Lib.Loop
import XfceLinux.Luks.Unlock

/-!
# Waiting for the live desktop

`run_wait_live` polls the display until it is bright and still, and keeps a copy of the
latest bright capture on the way. A dark capture forgets the hash, a failed one only starts
the count anew. So `prev_hash` is the hash of the latest successful capture if that one was
bright, and the loop returns at the second capture in a row that repeats it
(`wait_live_returns_iff`).
-/

namespace XfceLinux.Luks

open Lib Lib.Text

/-- A poll of the live display. -/
structure LivePoll where
  dump : Dump
  /-- The file with the screendump. -/
  snap : Bytes
  /-- `shutil.copy2` succeeds. -/
  copies : Bool

/-- `CONTENT_THRESHOLD` of `run_wait_live` -/
def LIVE_CONTENT_THRESHOLD : ℚ := 3 / 2

structure Live where
  stable_count : Nat
  prev_hash : Str
  /-- The file at `screenshot_path`, if this run has written it. -/
  screenshot : Option Bytes
deriving DecidableEq

def Live.init : Live := ⟨0, [], none⟩

/-- One iteration, with whether it returns. -/
def Live.poll (s : Live) (p : LivePoll) : Live × Bool :=
  if p.dump.brightness < 0 then ({ s with stable_count := 0 }, false)
  else if LIVE_CONTENT_THRESHOLD ≤ p.dump.brightness then
    let t : Live :=
      { stable_count := if p.dump.md5 = s.prev_hash then s.stable_count + 1 else 0
        prev_hash := p.dump.md5
        screenshot := if p.copies then some p.snap else s.screenshot }
    (t, decide (STABLE_POLLS ≤ t.stable_count))
  else ({ s with stable_count := 0, prev_hash := [] }, false)

structure LiveReport where
  /-- The variables behind each iteration. -/
  states : List Live
  /-- Whether it returns before the timeout. -/
  returned : Bool

/-- `run_wait_live`, with the polls that fall before the timeout. -/
def run_wait_live (polls : List LivePoll) : LiveReport :=
  ⟨Loop.states Live.poll .init polls, Loop.ended Live.poll .init polls⟩

/-! ## What the loop looks for -/

/-- The capture succeeded and is bright. -/
def LivePoll.Bright (p : LivePoll) : Prop := LIVE_CONTENT_THRESHOLD ≤ p.dump.brightness

instance (p : LivePoll) : Decidable p.Bright :=
  inferInstanceAs (Decidable (LIVE_CONTENT_THRESHOLD ≤ p.dump.brightness))

theorem LivePoll.Bright.ok {p : LivePoll} (h : p.Bright) : p.dump.Ok := by
  have hpos : (0 : ℚ) ≤ LIVE_CONTENT_THRESHOLD := by norm_num [LIVE_CONTENT_THRESHOLD]
  exact hpos.trans h

/-- The latest successful capture. -/
def latestOk (polls : List LivePoll) : Option LivePoll :=
  (polls.filter fun p => p.dump.Ok).getLast?

/-- The latest capture that is bright. -/
def latestBright (polls : List LivePoll) : Option LivePoll :=
  (polls.filter fun p => p.Bright).getLast?

/-- Captures `k - 1` and `k` are bright and repeat the hash of the latest successful capture
before them, which is bright too. -/
def Settled (polls : List LivePoll) (k : Nat) : Prop :=
  ∃ r q p, 0 < k ∧ latestOk (polls.take (k - 1)) = some r ∧ polls[k - 1]? = some q ∧
    polls[k]? = some p ∧ r.Bright ∧ q.Bright ∧ p.Bright ∧ q.dump.md5 = p.dump.md5 ∧
    r.dump.md5 = q.dump.md5

/-! ## The three kinds of poll -/

theorem LivePoll.cases (p : LivePoll) : ¬ p.dump.Ok ∨ p.Bright ∨ p.dump.Ok ∧ ¬ p.Bright := by
  tauto

/-- The variables behind a bright capture. -/
def Live.counted (s : Live) (p : LivePoll) : Live :=
  { stable_count := if p.dump.md5 = s.prev_hash then s.stable_count + 1 else 0
    prev_hash := p.dump.md5
    screenshot := if p.copies then some p.snap else s.screenshot }

theorem Live.poll_failed (s : Live) {p : LivePoll} (h : ¬ p.dump.Ok) :
    s.poll p = ({ s with stable_count := 0 }, false) :=
  if_pos (not_le.mp h)

theorem Live.poll_bright (s : Live) {p : LivePoll} (h : p.Bright) :
    s.poll p = (s.counted p, decide (STABLE_POLLS ≤ (s.counted p).stable_count)) := by
  rw [Live.poll, if_neg (not_lt.mpr h.ok)]
  exact if_pos h

theorem Live.poll_dark (s : Live) {p : LivePoll} (hok : p.dump.Ok) (h : ¬ p.Bright) :
    s.poll p = ({ s with stable_count := 0, prev_hash := [] }, false) := by
  rw [Live.poll, if_neg (not_lt.mpr hok)]
  exact if_neg h

/-! ## What the variables stand for -/

theorem latestOk_concat (polls : List LivePoll) (p : LivePoll) :
    latestOk (polls ++ [p]) = if p.dump.Ok then some p else latestOk polls := by
  rw [latestOk, List.filter_append]
  split <;> simp_all [latestOk]

theorem latestBright_concat (polls : List LivePoll) (p : LivePoll) :
    latestBright (polls ++ [p]) = if p.Bright then some p else latestBright polls := by
  rw [latestBright, List.filter_append]
  split <;> simp_all [latestBright]

/-- The latest successful capture is bright and has the hash `h`. -/
def Remembers (polls : List LivePoll) (h : Str) : Prop :=
  ∃ r, latestOk polls = some r ∧ r.Bright ∧ r.dump.md5 = h

/-- The latest poll is bright and repeats the hash of the latest success before it. -/
def Repeats (polls : List LivePoll) : Prop :=
  ∃ seen p, polls = seen ++ [p] ∧ p.Bright ∧ Remembers seen p.dump.md5

/-- The variables behind the polls `seen`. -/
structure LiveTracks (seen : List LivePoll) (s : Live) : Prop where
  prev_hash : ∀ h, h ≠ [] → (Remembers seen h ↔ s.prev_hash = h)
  stable_count : 1 ≤ s.stable_count ↔ Repeats seen

theorem liveTracks_init : LiveTracks [] .init where
  prev_hash h hne := by
    constructor
    · rintro ⟨r, hr, -⟩
      cases hr
    · intro hinit
      exact absurd hinit.symm hne
  stable_count := by
    constructor
    · intro h
      exact absurd h (by decide)
    · rintro ⟨seen, p, h, -⟩
      simp at h

theorem remembers_concat_of_bright {seen : List LivePoll} {p : LivePoll} (hp : p.Bright)
    (h : Str) : Remembers (seen ++ [p]) h ↔ p.dump.md5 = h := by
  rw [Remembers, latestOk_concat, if_pos hp.ok]
  constructor
  · rintro ⟨r, hr, -, hmd5⟩
    rwa [Option.some.inj hr]
  · intro hmd5
    exact ⟨p, rfl, hp, hmd5⟩

theorem repeats_concat (seen : List LivePoll) (p : LivePoll) :
    Repeats (seen ++ [p]) ↔ p.Bright ∧ Remembers seen p.dump.md5 := by
  constructor
  · rintro ⟨seen', p', h, hp, hr⟩
    obtain ⟨rfl, hpp⟩ := List.append_inj' h rfl
    obtain rfl := (List.cons.inj hpp).1
    exact ⟨hp, hr⟩
  · intro h
    exact ⟨seen, p, rfl, h⟩

theorem LiveTracks.poll {seen : List LivePoll} {s : Live} (hs : LiveTracks seen s)
    (p : LivePoll) : LiveTracks (seen ++ [p]) (s.poll p).1 := by
  rcases p.cases with hfailed | hbright | ⟨hok, hdark⟩
  · have hno : ¬ p.Bright := fun hp => hfailed hp.ok
    rw [s.poll_failed hfailed]
    refine ⟨?_, ?_⟩
    · intro h hne
      rw [Remembers, latestOk_concat, if_neg hfailed]
      exact hs.prev_hash h hne
    · rw [repeats_concat]
      simp [hno]
  · rw [s.poll_bright hbright]
    refine ⟨?_, ?_⟩
    · intro h _
      exact remembers_concat_of_bright hbright h
    · rw [repeats_concat, hs.prev_hash _ (p.dump.md5_ne_nil hbright.ok),
        @eq_comm _ s.prev_hash]
      simp only [Live.counted, hbright, true_and]
      split <;> simp_all
  · rw [s.poll_dark hok hdark]
    refine ⟨?_, ?_⟩
    · intro h hne
      rw [Remembers, latestOk_concat, if_pos hok]
      constructor
      · rintro ⟨r, hr, hbright, -⟩
        rw [← Option.some.inj hr] at hbright
        exact absurd hbright hdark
      · intro hnil
        exact absurd hnil.symm hne
    · rw [repeats_concat]
      simp [hdark]

/-- A poll returns if and only if it settles the display. -/
theorem poll_returns_iff {seen : List LivePoll} {s : Live} (hs : LiveTracks seen s)
    (p : LivePoll) :
    (s.poll p).2 = true ↔ p.Bright ∧ Remembers seen p.dump.md5 ∧ Repeats seen := by
  rcases p.cases with hfailed | hbright | ⟨hok, hdark⟩
  · have hno : ¬ p.Bright := fun hp => hfailed hp.ok
    rw [s.poll_failed hfailed]
    simp [hno]
  · rw [s.poll_bright hbright, decide_eq_true_eq,
      hs.prev_hash _ (p.dump.md5_ne_nil hbright.ok), ← hs.stable_count, @eq_comm _ s.prev_hash]
    simp only [Live.counted, STABLE_POLLS, hbright, true_and]
    split
    · rename_i hmd5
      simp only [hmd5, true_and]
      omega
    · rename_i hmd5
      simp [hmd5]
  · rw [s.poll_dark hok hdark]
    simp [hdark]

/-- The file is the copy of the latest bright capture. -/
theorem screenshot_poll {seen : List LivePoll} {s : Live} {p : LivePoll} (hp : p.copies = true)
    (hs : s.screenshot = (latestBright seen).map (·.snap)) :
    (s.poll p).1.screenshot = (latestBright (seen ++ [p])).map (·.snap) := by
  rw [latestBright_concat]
  rcases p.cases with hfailed | hbright | ⟨hok, hdark⟩
  · rw [s.poll_failed hfailed, if_neg fun hp : p.Bright => hfailed hp.ok]
    exact hs
  · rw [s.poll_bright hbright, if_pos hbright]
    exact if_pos hp
  · rw [s.poll_dark hok hdark, if_neg hdark]
    exact hs

/-! ## The loop -/

theorem liveTracks_behind (polls : List LivePoll) :
    LiveTracks polls (Loop.behind Live.poll .init polls) :=
  Loop.behind_invariant liveTracks_init (fun _ _ p h => h.poll p) polls

theorem settled_iff_endsAt (polls : List LivePoll) (k : Nat) :
    Settled polls k ↔ Loop.EndsAt Live.poll .init polls k := by
  constructor
  · rintro ⟨r, q, p, hk, hr, hq, hp, hrb, hqb, hpb, hqp, hrq⟩
    refine ⟨p, hp, ?_⟩
    have htake : polls.take k = polls.take (k - 1) ++ [q] := by
      have := List.take_add_one (l := polls) (i := k - 1)
      rwa [hq, Nat.sub_add_cancel hk] at this
    rw [poll_returns_iff (liveTracks_behind _), htake]
    refine ⟨hpb, (remembers_concat_of_bright hqb _).mpr hqp, ?_⟩
    exact (repeats_concat _ q).mpr ⟨hqb, r, hr, hrb, hrq⟩
  · rintro ⟨p, hp, hends⟩
    rw [poll_returns_iff (liveTracks_behind _)] at hends
    obtain ⟨hpb, hremembers, seen, q, htake, hqb, r, hr, hrb, hrq⟩ := hends
    have hlength := congrArg List.length htake
    have hlt := (List.getElem?_eq_some_iff.mp hp).1
    rw [List.length_take, List.length_append, List.length_singleton] at hlength
    have hk : k = seen.length + 1 := by omega
    have hseen : polls.take (k - 1) = seen := by
      have := congrArg (List.take seen.length) htake
      rw [List.take_take, List.take_left, Nat.min_eq_left (by omega)] at this
      rwa [hk, Nat.add_sub_cancel]
    have hq : polls[k - 1]? = some q := by
      have := congrArg (·[seen.length]?) htake
      simp only [List.getElem?_concat_length] at this
      rw [List.getElem?_take_of_lt (by omega)] at this
      rwa [hk, Nat.add_sub_cancel]
    rw [htake, remembers_concat_of_bright hqb] at hremembers
    exact ⟨r, q, p, by omega, by rw [hseen, hr], hq, hp, hrb, hqb, hpb, hremembers, hrq⟩

/-- **What wait-live does.** With every copy succeeding, the file is the copy of the latest
bright capture behind each poll; the loop returns at the first poll that settles the display,
and without one it goes on to the timeout. -/
theorem wait_live_returns_iff (polls : List LivePoll) (hcopies : ∀ p ∈ polls, p.copies = true) :
    (∀ (k : Nat) (t : Live), (run_wait_live polls).states[k]? = some t →
      t.screenshot = (latestBright (polls.take (k + 1))).map (·.snap)) ∧
    (∀ k, (run_wait_live polls).returned = true ∧ (run_wait_live polls).states.length = k + 1 ↔
      Settled polls k ∧ ∀ j < k, ¬ Settled polls j) ∧
    ((∀ k, ¬ Settled polls k) → (run_wait_live polls).returned = false ∧
      (run_wait_live polls).states.length = polls.length) := by
  refine ⟨?_, ?_, ?_⟩
  · intro k t ht
    rw [Loop.getElem?_states ht]
    have hKept : ∀ seen : List LivePoll, (∀ p ∈ seen, p.copies = true) →
        (Loop.behind Live.poll .init seen).screenshot = (latestBright seen).map (·.snap) := by
      intro seen
      induction seen using List.reverseRecOn with
      | nil => intro _; rfl
      | append_singleton seen p ih =>
        intro hseen
        rw [Loop.behind_concat]
        apply screenshot_poll (hseen p (by simp))
        exact ih fun q hq => hseen q (List.mem_append_left _ hq)
    exact hKept _ fun p hp => hcopies p (List.mem_of_mem_take hp)
  · intro k
    simp only [settled_iff_endsAt]
    exact Loop.ended_at_iff
  · intro hno
    simp only [settled_iff_endsAt] at hno
    refine ⟨?_, Loop.length_states_of_forall hno⟩
    rw [← Bool.not_eq_true]
    intro hended
    obtain ⟨k, hk⟩ := Loop.ended_iff.mp hended
    exact hno k hk

/-- A bright capture. -/
def frame : LivePoll where
  dump := ⟨2, ['b'], .inr ⟨by norm_num, by simp⟩⟩
  snap := [80, 54]
  copies := true

/-- Three bright captures in a row end it. -/
theorem wait_live_returns_iff_still :
    Settled (List.replicate 4 frame) 2 ∧ ∀ j < 2, ¬ Settled (List.replicate 4 frame) j := by
  have hcopies : ∀ p ∈ List.replicate 4 frame, p.copies = true := by
    intro p hp
    rw [List.eq_of_mem_replicate hp]
    rfl
  have hthird : (run_wait_live (List.replicate 4 frame)).returned = true ∧
      (run_wait_live (List.replicate 4 frame)).states.length = 2 + 1 := by decide +kernel
  exact ((wait_live_returns_iff _ hcopies).2.1 2).mp hthird

end XfceLinux.Luks
