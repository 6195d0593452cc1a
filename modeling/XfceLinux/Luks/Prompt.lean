import XfceLinux.Lib.Loop
import XfceLinux.Luks.Unlock

/-!
# When the passphrase is typed

The search keeps three variables. After any number of polls that have not ended it,
`had_content` says that the content era has begun, `prev_hash` is the hash of the latest
capture of that era, and `stable_count` counts the captures at the end that repeat it
(`Tracks`). The passphrase is therefore typed at the first poll at which the declarative
condition `Fires` holds (`passphrase_sent_iff`).
-/

namespace XfceLinux.Luks

open Lib Lib.Text

/-- Poll `i` captured a display brighter than the threshold. -/
def Bright (polls : List Poll) (i : Nat) : Prop :=
  ∃ p, polls[i]? = some p ∧ p.dump.Ok ∧ CONTENT_THRESHOLD < p.dump.brightness

/-- Poll `i` captured the hash `h` in the content era, which begins with the first bright
capture. -/
def InContent (polls : List Poll) (i : Nat) (h : Str) : Prop :=
  ∃ p, polls[i]? = some p ∧ p.dump.Ok ∧ p.dump.md5 = h ∧ ∃ j ≤ i, Bright polls j

/-- The latest capture of the content era before poll `n` has the hash `h`. -/
def LastContent (polls : List Poll) (n : Nat) (h : Str) : Prop :=
  ∃ j < n, InContent polls j h ∧ ∀ i, j < i → i < n → ∀ h', ¬ InContent polls i h'

/-- Polls `k - 1` and `k` captured the same hash as the latest capture before them. -/
def StableAt (polls : List Poll) (k : Nat) : Prop :=
  ∃ h, 1 ≤ k ∧ InContent polls k h ∧ InContent polls (k - 1) h ∧ LastContent polls (k - 1) h

/-- The condition under which poll `k` sees the prompt. -/
def Fires (polls : List Poll) (k : Nat) : Prop :=
  (∃ p, polls[k]? = some p ∧ p.serial = .plymouth) ∨ StableAt polls k

/-- The passphrase is typed in the iteration of poll `k`. -/
def SentAt (r : Report) (k : Nat) : Prop :=
  ∃ calls, r.search[k]? = some calls ∧ .qemu_send_passphrase ∈ calls

/-! ## Later polls do not matter -/

theorem bright_append {seen rest : List Poll} {i : Nat} (hi : i < seen.length) :
    Bright (seen ++ rest) i ↔ Bright seen i := by
  unfold Bright
  rw [List.getElem?_append_left hi]

theorem inContent_append {seen rest : List Poll} {i : Nat} (hi : i < seen.length) {h : Str} :
    InContent (seen ++ rest) i h ↔ InContent seen i h := by
  have hBright : (∃ j ≤ i, Bright (seen ++ rest) j) ↔ ∃ j ≤ i, Bright seen j := by
    apply exists_congr
    intro j
    apply and_congr_right
    intro hj
    exact bright_append (by omega)
  unfold InContent
  rw [List.getElem?_append_left hi, hBright]

theorem lastContent_append {seen rest : List Poll} {n : Nat} (hn : n ≤ seen.length) {h : Str} :
    LastContent (seen ++ rest) n h ↔ LastContent seen n h := by
  apply exists_congr
  intro j
  apply and_congr_right
  intro hj
  rw [inContent_append (by omega)]
  apply and_congr_right
  intro _
  constructor
  · intro hnone i hji hi h' hin
    exact hnone i hji hi h' ((inContent_append (by omega)).mpr hin)
  · intro hnone i hji hi h' hin
    exact hnone i hji hi h' ((inContent_append (by omega)).mp hin)

theorem fires_append {seen rest : List Poll} {k : Nat} (hk : k < seen.length) :
    Fires (seen ++ rest) k ↔ Fires seen k := by
  have hStable : StableAt (seen ++ rest) k ↔ StableAt seen k := by
    apply exists_congr
    intro h
    rw [inContent_append hk, inContent_append (i := k - 1) (by omega),
      lastContent_append (n := k - 1) (by omega)]
  unfold Fires
  rw [List.getElem?_append_left hk, hStable]

/-! ## One more poll -/

/-- The content era has begun, now or before, and the capture of `p` belongs to it. -/
def Extends (seen : List Poll) (p : Poll) : Prop :=
  p.dump.Ok ∧ ((∃ i, Bright seen i) ∨ CONTENT_THRESHOLD < p.dump.brightness)

theorem bright_lt {polls : List Poll} {i : Nat} (h : Bright polls i) : i < polls.length := by
  obtain ⟨p, hp, -⟩ := h
  exact (List.getElem?_eq_some_iff.mp hp).1

theorem inContent_lt {polls : List Poll} {i : Nat} {h : Str} (hin : InContent polls i h) :
    i < polls.length := by
  obtain ⟨p, hp, -⟩ := hin
  exact (List.getElem?_eq_some_iff.mp hp).1

theorem bright_length_iff (seen : List Poll) (p : Poll) :
    Bright (seen ++ [p]) seen.length ↔
      p.dump.Ok ∧ CONTENT_THRESHOLD < p.dump.brightness := by
  simp [Bright]

theorem exists_bright_snoc (seen : List Poll) (p : Poll) :
    (∃ i, Bright (seen ++ [p]) i) ↔
      (∃ i, Bright seen i) ∨ p.dump.Ok ∧ CONTENT_THRESHOLD < p.dump.brightness := by
  constructor
  · rintro ⟨i, hi⟩
    have hlt := bright_lt hi
    rw [List.length_append, List.length_singleton] at hlt
    by_cases hlast : i = seen.length
    · exact .inr ((bright_length_iff seen p).mp (hlast ▸ hi))
    · exact .inl ⟨i, (bright_append (by omega)).mp hi⟩
  · rintro (⟨i, hi⟩ | hp)
    · exact ⟨i, (bright_append (bright_lt hi)).mpr hi⟩
    · exact ⟨seen.length, (bright_length_iff seen p).mpr hp⟩

theorem inContent_length_iff (seen : List Poll) (p : Poll) (h : Str) :
    InContent (seen ++ [p]) seen.length h ↔ Extends seen p ∧ p.dump.md5 = h := by
  have hEra : (∃ j ≤ seen.length, Bright (seen ++ [p]) j) ↔ ∃ j, Bright (seen ++ [p]) j := by
    constructor
    · rintro ⟨j, -, hj⟩
      exact ⟨j, hj⟩
    · rintro ⟨j, hj⟩
      have hlt := bright_lt hj
      rw [List.length_append, List.length_singleton] at hlt
      exact ⟨j, by omega, hj⟩
  simp only [InContent, hEra, exists_bright_snoc, Extends, List.getElem?_concat_length,
    Option.some.injEq, exists_eq_left']
  tauto

theorem lastContent_snoc_of_extends {seen : List Poll} {p : Poll} (hp : Extends seen p)
    (h : Str) : LastContent (seen ++ [p]) (seen.length + 1) h ↔ p.dump.md5 = h := by
  constructor
  · rintro ⟨j, hj, hin, hnone⟩
    by_cases hlast : j = seen.length
    · exact ((inContent_length_iff seen p h).mp (hlast ▸ hin)).2
    · have hp' := (inContent_length_iff seen p _).mpr ⟨hp, rfl⟩
      exact absurd hp' (hnone seen.length (by omega) (by omega) _)
  · intro hmd5
    refine ⟨seen.length, by omega, (inContent_length_iff seen p h).mpr ⟨hp, hmd5⟩, ?_⟩
    intro i hi hi'
    omega

theorem lastContent_snoc_of_not_extends {seen : List Poll} {p : Poll} (hp : ¬ Extends seen p)
    (h : Str) :
    LastContent (seen ++ [p]) (seen.length + 1) h ↔ LastContent seen seen.length h := by
  have hno : ∀ h', ¬ InContent (seen ++ [p]) seen.length h' := by
    intro h' hin
    exact hp ((inContent_length_iff seen p h').mp hin).1
  have hbefore : LastContent (seen ++ [p]) seen.length h ↔ LastContent seen seen.length h :=
    lastContent_append le_rfl
  rw [← hbefore]
  constructor
  · rintro ⟨j, hj, hin, hnone⟩
    have hne : j ≠ seen.length := fun he => hno h (he ▸ hin)
    exact ⟨j, by omega, hin, fun i hji hi => hnone i hji (by omega)⟩
  · rintro ⟨j, hj, hin, hnone⟩
    refine ⟨j, by omega, hin, ?_⟩
    intro i hji hi h'
    by_cases hlast : i = seen.length
    · exact hlast ▸ hno h'
    · exact hnone i hji (by omega) h'

/-! ## What the variables stand for -/

/-- The variables of the search after the polls `seen`, none of which ended it. -/
structure Tracks (seen : List Poll) (s : Search) : Prop where
  had_content : s.had_content = true ↔ ∃ i, Bright seen i
  prev_hash : ∀ h, h ≠ [] → (LastContent seen seen.length h ↔ s.prev_hash = h)
  /-- The latest poll repeated the hash before it. -/
  stable_count : 1 ≤ s.stable_count ↔
    ∃ h, 1 ≤ seen.length ∧ InContent seen (seen.length - 1) h ∧
      LastContent seen (seen.length - 1) h

theorem tracks_init : Tracks [] .init where
  had_content := by simp [Search.init, Bright]
  prev_hash h hne := by simpa [LastContent, Search.init] using Ne.symm hne
  stable_count := by simp [Search.init]

theorem extends_iff {seen : List Poll} {s : Search} (hs : Tracks seen s) {p : Poll} :
    Extends seen p ↔
      p.dump.Ok ∧ (s.had_content || decide (CONTENT_THRESHOLD < p.dump.brightness)) = true := by
  rw [Extends, Bool.or_eq_true, decide_eq_true_eq, hs.had_content]

/-- The count is positive behind a poll if and only if its capture repeats the hash. -/
theorem repeats_iff {seen : List Poll} {s : Search} (hs : Tracks seen s) (p : Poll) :
    (∃ h, 1 ≤ (seen ++ [p]).length ∧ InContent (seen ++ [p]) ((seen ++ [p]).length - 1) h ∧
      LastContent (seen ++ [p]) ((seen ++ [p]).length - 1) h) ↔
      Extends seen p ∧ p.dump.md5 = s.prev_hash := by
  simp only [List.length_append, List.length_singleton, Nat.add_sub_cancel]
  constructor
  · rintro ⟨h, -, hin, hlast⟩
    obtain ⟨hp, hmd5⟩ := (inContent_length_iff seen p h).mp hin
    have hne : h ≠ [] := hmd5 ▸ p.dump.md5_ne_nil hp.1
    rw [lastContent_append le_rfl, hs.prev_hash h hne] at hlast
    exact ⟨hp, hmd5.trans hlast.symm⟩
  · rintro ⟨hp, hmd5⟩
    refine ⟨p.dump.md5, by omega, (inContent_length_iff seen p _).mpr ⟨hp, rfl⟩, ?_⟩
    rw [lastContent_append le_rfl, hs.prev_hash _ (p.dump.md5_ne_nil hp.1)]
    exact hmd5.symm

theorem not_plymouth_snoc_fires_iff {seen : List Poll} {s : Search} (hs : Tracks seen s)
    {p : Poll} (hp : p.serial ≠ .plymouth) :
    Fires (seen ++ [p]) seen.length ↔
      Extends seen p ∧ p.dump.md5 = s.prev_hash ∧ 1 ≤ s.stable_count := by
  have hno : ¬ ∃ q, (seen ++ [p])[seen.length]? = some q ∧ q.serial = .plymouth := by
    simpa using hp
  rw [Fires, or_iff_right hno, hs.stable_count]
  constructor
  · rintro ⟨h, hk, hin, hprev, hlast⟩
    rw [inContent_append (by omega)] at hprev
    rw [lastContent_append (by omega)] at hlast
    obtain ⟨hext, hmd5⟩ := (inContent_length_iff seen p h).mp hin
    have hne : h ≠ [] := hmd5 ▸ p.dump.md5_ne_nil hext.1
    -- the capture before this poll is the latest one
    have hlatest : LastContent seen seen.length h :=
      ⟨seen.length - 1, by omega, hprev, fun i hi hi' => by omega⟩
    exact ⟨hext, hmd5.trans ((hs.prev_hash h hne).mp hlatest).symm, h, hk, hprev, hlast⟩
  · rintro ⟨hext, hmd5, h, hk, hprev, hlast⟩
    have hne : h ≠ [] := by
      obtain ⟨q, -, hok, hq, -⟩ := hprev
      exact hq ▸ q.dump.md5_ne_nil hok
    have hlatest : LastContent seen seen.length h :=
      ⟨seen.length - 1, by omega, hprev, fun i hi hi' => by omega⟩
    have hh : p.dump.md5 = h := hmd5.trans ((hs.prev_hash h hne).mp hlatest)
    refine ⟨h, hk, (inContent_length_iff seen p h).mpr ⟨hext, hh⟩, ?_, ?_⟩
    · exact (inContent_append (by omega)).mpr hprev
    · exact (lastContent_append (by omega)).mpr hlast

theorem had_content_of_stable_count {seen : List Poll} {s : Search} (hs : Tracks seen s)
    (h : 1 ≤ s.stable_count) : s.had_content = true := by
  obtain ⟨_, -, ⟨_, -, -, -, j, -, hj⟩, -⟩ := hs.stable_count.mp h
  exact hs.had_content.mpr ⟨j, hj⟩

/-- The variables behind a capture of the content era. -/
def Search.counted (s : Search) (d : Dump) : Search :=
  { had_content := true
    stable_count := if d.md5 = s.prev_hash then s.stable_count + 1 else 0
    prev_hash := d.md5 }

theorem poll_of_extends {seen : List Poll} {s : Search} (hs : Tracks seen s) {p : Poll}
    (hp : p.serial ≠ .plymouth) (hext : Extends seen p) :
    s.poll p = (s.counted p.dump, decide (STABLE_POLLS ≤ (s.counted p.dump).stable_count)) := by
  obtain ⟨hok, hera⟩ := (extends_iff hs).mp hext
  unfold Search.poll
  rw [if_neg hp, if_neg (not_lt.mpr hok)]
  simp only [hera, if_true, Bool.true_and]
  rfl

theorem poll_of_not_extends {seen : List Poll} {s : Search} (hs : Tracks seen s) {p : Poll}
    (hp : p.serial ≠ .plymouth) (hext : ¬ Extends seen p) :
    s.poll p = ({ s with stable_count := 0 }, false) := by
  unfold Search.poll
  rw [if_neg hp]
  split
  · rfl
  · rename_i hok
    have hera : (s.had_content || decide (CONTENT_THRESHOLD < p.dump.brightness)) = false :=
      Bool.eq_false_iff.mpr fun hera => hext ((extends_iff hs).mpr ⟨not_lt.mp hok, hera⟩)
    have hhad : s.had_content = false := (Bool.or_eq_false_iff.mp hera).1
    -- before the content era the count is still 0
    have hzero : s.stable_count = 0 := by
      by_contra hne
      rw [had_content_of_stable_count hs (by omega)] at hhad
      cases hhad
    simp only [hera, Bool.false_and, Bool.false_eq_true, if_false]
    rw [← hzero, ← hhad]

theorem Tracks.poll {seen : List Poll} {s : Search} (hs : Tracks seen s) {p : Poll}
    (hp : p.serial ≠ .plymouth) : Tracks (seen ++ [p]) (s.poll p).1 := by
  by_cases hext : Extends seen p
  · rw [poll_of_extends hs hp hext]
    refine ⟨?_, ?_, ?_⟩
    · rw [exists_bright_snoc]
      simpa [Search.counted] using hext.2.imp_right fun hb => ⟨hext.1, hb⟩
    · intro h _
      rw [List.length_append, List.length_singleton, lastContent_snoc_of_extends hext]
      rfl
    · rw [repeats_iff hs]
      simp only [Search.counted, hext, true_and]
      split <;> simp_all
  · rw [poll_of_not_extends hs hp hext]
    refine ⟨?_, ?_, ?_⟩
    · rw [exists_bright_snoc, ← hs.had_content]
      exact ⟨.inl, fun h => h.resolve_right fun hb => hext ⟨hb.1, .inr hb.2⟩⟩
    · intro h hne
      rw [List.length_append, List.length_singleton, lastContent_snoc_of_not_extends hext]
      exact hs.prev_hash h hne
    · rw [repeats_iff hs]
      simp [hext]

theorem poll_sends_iff {seen : List Poll} {s : Search} (hs : Tracks seen s) (p : Poll) :
    (s.poll p).2 = true ↔ Fires (seen ++ [p]) seen.length := by
  by_cases hp : p.serial = .plymouth
  · have hfires : Fires (seen ++ [p]) seen.length := .inl ⟨p, by simp, hp⟩
    simp [Search.poll, hp, hfires]
  · rw [not_plymouth_snoc_fires_iff hs hp]
    by_cases hext : Extends seen p
    · rw [poll_of_extends hs hp hext]
      simp only [hext, true_and, Search.counted, STABLE_POLLS]
      split <;> simp_all
    · rw [poll_of_not_extends hs hp hext]
      simp [hext]

/-! ## The loop -/

/-- The search from the variables `s` behind the polls `seen`, with `polls` still to come. -/
inductive Searches (seen : List Poll) (s : Search) (polls : List Poll) : Prop
  /-- It goes on to the deadline. -/
  | expired (never : ∀ k, seen.length ≤ k → ¬ Fires (seen ++ polls) k)
      (calls : search s polls = (polls.map fun p => searchCalls p false, none))
  /-- It types the passphrase at the poll `p`, where the variables are `t`. -/
  | sent (quiet : List Poll) (p : Poll) (rest : List Poll) (t : Search)
      (split : polls = quiet ++ p :: rest)
      (first : ∀ k, seen.length ≤ k → k < seen.length + quiet.length →
        ¬ Fires (seen ++ polls) k)
      (fires : Fires (seen ++ polls) (seen.length + quiet.length))
      (tracks : Tracks (seen ++ quiet) t)
      (calls : search s polls =
        (quiet.map (fun p => searchCalls p false) ++ [searchCalls p true],
          some (t.poll p).1))

theorem Tracks.searches {seen : List Poll} {s : Search} (hs : Tracks seen s)
    (polls : List Poll) : Searches seen s polls := by
  induction polls generalizing seen s with
  | nil =>
    refine .expired ?_ rfl
    rintro k hk (⟨p, hp, -⟩ | ⟨h, -, hin, -⟩)
    · rw [List.append_nil, List.getElem?_eq_none hk] at hp
      cases hp
    · have := inContent_lt hin
      simp at this
      omega
  | cons p polls ih =>
    have hfires : Fires (seen ++ p :: polls) seen.length ↔ Fires (seen ++ [p]) seen.length := by
      rw [List.append_cons]
      exact fires_append (by simp)
    by_cases hsent : (s.poll p).2 = true
    · refine .sent [] p polls s rfl ?_ ?_ (by simpa using hs) ?_
      · intro k hk hk'
        simp at hk'
        omega
      · exact hfires.mpr ((poll_sends_iff hs p).mp hsent)
      · simp [search, hsent]
    · have hquiet : ¬ Fires (seen ++ p :: polls) seen.length := by
        rw [hfires, ← poll_sends_iff hs p]
        exact hsent
      have hp : p.serial ≠ .plymouth := fun hp => hsent (by simp [Search.poll, hp])
      have hlen : (seen ++ [p]).length = seen.length + 1 := by simp
      have hfirst : ∀ k, seen.length ≤ k → k < seen.length + 1 →
          ¬ Fires (seen ++ p :: polls) k := by
        intro k hk hk'
        obtain rfl : k = seen.length := by omega
        exact hquiet
      cases ih (hs.poll hp) with
      | expired hnever hcalls =>
        rw [List.append_assoc, List.singleton_append, hlen] at hnever
        refine .expired ?_ (by simp [search, hsent, hcalls])
        intro k hk
        rcases Nat.lt_or_ge k (seen.length + 1) with hlt | hge
        · exact hfirst k hk hlt
        · exact hnever k hge
      | sent quiet q rest t hsplit hnone hfire htracks hcalls =>
        rw [List.append_assoc, List.singleton_append, hlen] at hnone hfire
        have hidx : seen.length + (p :: quiet).length = seen.length + 1 + quiet.length := by
          simp only [List.length_cons]
          omega
        refine .sent (p :: quiet) q rest t (by rw [hsplit, List.cons_append]) ?_ ?_ ?_ ?_
        · intro k hk hk'
          rcases Nat.lt_or_ge k (seen.length + 1) with hlt | hge
          · exact hfirst k hk hlt
          · exact hnone k hge (by omega)
        · rw [hidx]
          exact hfire
        · simpa using htracks
        · simp [search, hsent, hcalls]

/-! ## The script -/

theorem send_notMem_boot (w : Watch) (boots : List BootPoll) :
    .qemu_send_passphrase ∉ (boot w boots).1.flatten := by
  have hCalls : ∀ p, .qemu_send_passphrase ∉ bootCalls p := by
    intro p
    unfold bootCalls
    split <;> simp
  induction boots generalizing w with
  | nil => simp [boot]
  | cons p boots ih =>
    unfold boot
    dsimp only
    split
    · simpa using hCalls p
    · rw [List.flatten_cons, List.mem_append, not_or]
      exact ⟨hCalls p, ih _⟩

theorem count_send_search (quiet : List Poll) :
    ((quiet.map fun p => searchCalls p false).flatten).count .qemu_send_passphrase = 0 := by
  rw [List.count_eq_zero]
  intro hmem
  obtain ⟨calls, hcalls, hsend⟩ := List.mem_flatten.mp hmem
  obtain ⟨p, -, rfl⟩ := List.mem_map.mp hcalls
  simp [searchCalls] at hsend

theorem not_sentAt_of_expired (polls : List Poll) (boot : List (List Call)) (exit : Exit)
    (k : Nat) : ¬ SentAt ⟨polls.map fun p => searchCalls p false, boot, exit⟩ k := by
  rintro ⟨calls, hk, hsend⟩
  have hmem := List.mem_flatten.mpr ⟨calls, List.mem_of_getElem? hk, hsend⟩
  exact List.count_eq_zero.mp (count_send_search polls) hmem

/-- The iteration that ends the search is the one that types the passphrase. -/
theorem sentAt_concat_iff (quiet : List Poll) (p : Poll) (boot : List (List Call)) (exit : Exit)
    (k : Nat) :
    SentAt ⟨quiet.map (fun p => searchCalls p false) ++ [searchCalls p true], boot, exit⟩ k ↔
      k = quiet.length := by
  constructor
  · rintro ⟨calls, hk, hsend⟩
    have hlt := (List.getElem?_eq_some_iff.mp hk).1
    simp only [List.length_append, List.length_map, List.length_singleton] at hlt
    by_contra hne
    rw [List.getElem?_append_left (by rw [List.length_map]; omega)] at hk
    exact not_sentAt_of_expired quiet boot exit k ⟨calls, hk, hsend⟩
  · rintro rfl
    refine ⟨searchCalls p true, ?_, by simp [searchCalls]⟩
    rw [List.getElem?_append_right (by simp)]
    simp

/-- **When the passphrase is typed.** `qemu_send_passphrase` is called at most once, in the
first poll at which the serial log shows the prompt or two captures of the content era in a
row repeat the one before them; without such a poll the exit status is 1. -/
theorem passphrase_sent_iff (polls : List Poll) (boots : List BootPoll) :
    (∀ k, SentAt (run_qemu polls boots) k ↔ Fires polls k ∧ ∀ j < k, ¬ Fires polls j) ∧
    ((run_qemu polls boots).search ++ (run_qemu polls boots).boot).flatten.count
      .qemu_send_passphrase ≤ 1 ∧
    ((∀ k, ¬ Fires polls k) → (run_qemu polls boots).exit.code = 1 ∧
      .qemu_send_passphrase ∉
        ((run_qemu polls boots).search ++ (run_qemu polls boots).boot).flatten) := by
  cases tracks_init.searches polls with
  | expired hnever hcalls =>
    have hno : ∀ k, ¬ Fires polls k := fun k => hnever k (Nat.zero_le k)
    have hrun : run_qemu polls boots =
        ⟨polls.map fun p => searchCalls p false, [], .undetected⟩ := by
      simp [run_qemu, hcalls]
    have hcount := count_send_search polls
    rw [hrun]
    refine ⟨?_, ?_, ?_⟩
    · intro k
      exact iff_of_false (not_sentAt_of_expired polls [] .undetected k) fun hk => hno k hk.1
    · rw [List.append_nil, hcount]
      omega
    · intro _
      rw [List.append_nil]
      exact ⟨rfl, List.count_eq_zero.mp hcount⟩
  | sent quiet p rest t hsplit hfirst hfires htracks hcalls =>
    simp only [List.nil_append, List.length_nil, Nat.zero_add] at hfirst hfires
    have hbefore : ∀ j < quiet.length, ¬ Fires polls j := fun j hj => hfirst j (Nat.zero_le j) hj
    have hrun : run_qemu polls boots =
        ⟨quiet.map (fun p => searchCalls p false) ++ [searchCalls p true],
          (boot (t.poll p).1.watch boots).1, (boot (t.poll p).1.watch boots).2⟩ := by
      simp [run_qemu, hcalls]
    have hcount := count_send_search quiet
    have hboot := List.count_eq_zero.mpr (send_notMem_boot (t.poll p).1.watch boots)
    rw [hrun]
    refine ⟨?_, ?_, ?_⟩
    · intro k
      rw [sentAt_concat_iff]
      constructor
      · rintro rfl
        exact ⟨hfires, hbefore⟩
      · rintro ⟨hk, hkfirst⟩
        exact Loop.first_unique hk hkfirst hfires hbefore
    · rw [List.flatten_append, List.flatten_append, List.count_append, List.count_append,
        hcount, hboot]
      simp [searchCalls]
    · exact fun hnever => absurd hfires (hnever _)

end XfceLinux.Luks
