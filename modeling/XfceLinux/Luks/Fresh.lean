import XfceLinux.Luks.Failed
import XfceLinux.Luks.Screendump

/-!
# Dumps that are not fresh

`qemu_screendump` asks the monitor for a dump and reads the file at the path, whatever the
request came to. A request without a new dump therefore fails only if the file that is there
cannot be read; otherwise the capture repeats the latest one, and the counters take it for a
display that stands still (`dumps_fresh_iff`). The sequences are of requests that end in time;
one that does not raises, and ends the caller.
-/

namespace XfceLinux.Luks

open Lib Lib.Text

/-! ## The file between two requests -/

/-- A `screendump` request whose command ends in time. -/
structure Request where
  /-- The exit status of the command. -/
  returncode : Int
  /-- The dump that the monitor writes for it, if it does. -/
  dumped : Option Bytes
deriving DecidableEq

/-- The file behind the request. -/
def Request.leaves (r : Request) (file : Option Bytes) : Option Bytes := r.dumped.or file

/-- The file behind requests: the latest dump, or the file that was there before. -/
def held (file : Option Bytes) (rs : List Request) : Option Bytes :=
  ((rs.filterMap Request.dumped).getLast?).or file

variable {μ π : Type} (request : μ → Request) (see : μ → Option Bytes → π)

/-- What is seen of requests one after another: each sees the file behind it. -/
def watched : Option Bytes → List μ → List π
  | _, [] => []
  | file, m :: ms =>
    see m ((request m).leaves file) :: watched ((request m).leaves file) ms

variable {request see}

theorem held_cons (file : Option Bytes) (r : Request) (rs : List Request) :
    held file (r :: rs) = held (r.leaves file) rs := by
  rw [held, held, Request.leaves, List.filterMap_cons]
  cases r.dumped with
  | none => rfl
  | some data =>
    rw [List.getLast?_cons]
    cases (rs.filterMap Request.dumped).getLast? <;> rfl

theorem held_concat (file : Option Bytes) (rs : List Request) (r : Request) :
    held file (rs ++ [r]) = r.leaves (held file rs) := by
  rw [held, held, Request.leaves, List.filterMap_append, List.filterMap_cons, List.filterMap_nil]
  cases r.dumped with
  | none => rw [List.append_nil, Option.none_or]
  | some data => rw [List.getLast?_concat, Option.some_or, Option.some_or]

theorem getElem?_watched (file : Option Bytes) (ms : List μ) (k : Nat) :
    (watched request see file ms)[k]? = ms[k]?.map fun m =>
      see m ((request m).leaves (held file ((ms.take k).map request))) := by
  induction ms generalizing file k with
  | nil => rfl
  | cons m ms ih =>
    cases k with
    | zero => rfl
    | succ k =>
      rw [watched, List.getElem?_cons_succ, ih, List.getElem?_cons_succ, List.take_succ_cons,
        List.map_cons, held_cons]

/-- A request without a dump leaves the file as it is. -/
theorem leaves_of_silent {r : Request} (h : r.dumped = none) (file : Option Bytes) :
    r.leaves file = file := by
  rw [Request.leaves, h, Option.none_or]

/-! ## What can be read -/

/-- The file has the mark `255\n`, and something behind it. -/
def Readable (file : Option Bytes) : Prop :=
  ∃ u v, v ≠ [] ∧ file = some (u ++ ascii "255\n" ++ v)

theorem headerEnd_spec (data : Bytes) :
    (∃ n, headerEnd data = some n ∧ data.drop n ≠ []) ↔
      ∃ u v, v ≠ [] ∧ data = u ++ ascii "255\n" ++ v := by
  induction data with
  | nil =>
    constructor
    · rintro ⟨n, hn, -⟩
      cases hn
    · rintro ⟨u, v, hv, h⟩
      simp [hv] at h
  | cons b data ih =>
    by_cases hmark : (ascii "255\n").isPrefixOf (b :: data) = true
    · obtain ⟨rest, hrest⟩ := List.isPrefixOf_iff_prefix.mp hmark
      have hdrop : (b :: data).drop 4 = rest := by rw [← hrest]; rfl
      rw [headerEnd, if_pos hmark]
      constructor
      · rintro ⟨n, hn, hne⟩
        obtain rfl := Option.some.inj hn
        exact ⟨[], rest, hdrop ▸ hne, by rw [List.nil_append, hrest]⟩
      · rintro ⟨u, v, hv, h⟩
        refine ⟨4, rfl, ?_⟩
        have hlength := congrArg List.length h
        have hpos := List.length_pos_iff.mpr hv
        have hfour : (ascii "255\n").length = 4 := rfl
        rw [List.length_append, List.length_append] at hlength
        apply List.ne_nil_of_length_pos
        rw [List.length_drop]
        omega
    · rw [headerEnd, if_neg hmark]
      constructor
      · rintro ⟨n, hn, hne⟩
        obtain ⟨m, hm, rfl⟩ := Option.map_eq_some_iff.mp hn
        obtain ⟨u, v, hv, h⟩ := ih.mp ⟨m, hm, hne⟩
        exact ⟨b :: u, v, hv, by rw [h]; rfl⟩
      · rintro ⟨u, v, hv, h⟩
        cases u with
        | nil =>
          refine absurd ?_ hmark
          rw [List.isPrefixOf_iff_prefix, h, List.nil_append]
          exact List.prefix_append _ _
        | cons c u =>
          obtain ⟨n, hn, hne⟩ := ih.mpr ⟨u, v, hv, (List.cons.inj h).2⟩
          exact ⟨n + 1, by rw [hn]; rfl, hne⟩

theorem ok_screendump_iff (hexdigest : Bytes → { s : Str // s ≠ [] }) (file : Option Bytes) :
    (qemu_screendump hexdigest file).Ok ↔ Readable file := by
  have hfailed : ¬ Dump.failed.Ok := by norm_num [Dump.Ok, Dump.failed]
  cases file with
  | none =>
    constructor
    · exact fun h => absurd h hfailed
    · rintro ⟨u, v, -, h⟩
      cases h
  | some data =>
    have hreadable : Readable (some data) ↔ ∃ n, headerEnd data = some n ∧ data.drop n ≠ [] := by
      rw [headerEnd_spec]
      simp [Readable]
    rw [hreadable, qemu_screendump]
    cases hend : headerEnd data with
    | none => simpa using hfailed
    | some n =>
      dsimp only
      by_cases hne : data.drop n = []
      · rw [if_pos hne]
        constructor
        · exact fun h => absurd h hfailed
        · rintro ⟨m, hm, hm'⟩
          obtain rfl := Option.some.inj hm
          exact absurd hne hm'
      · rw [if_neg hne]
        constructor
        · exact fun _ => ⟨n, rfl, hne⟩
        · intro _
          unfold Dump.Ok
          positivity

theorem eq_failed_iff (d : Dump) : d = .failed ↔ ¬ d.Ok := by
  constructor
  · rintro rfl
    norm_num [Dump.Ok, Dump.failed]
  · intro h
    have hvalid := d.valid.resolve_right fun hv => h hv.1
    cases d
    obtain ⟨rfl, rfl⟩ := hvalid
    rfl

theorem screendump_failed_iff (hexdigest : Bytes → { s : Str // s ≠ [] })
    (file : Option Bytes) : qemu_screendump hexdigest file = .failed ↔ ¬ Readable file := by
  rw [eq_failed_iff, ok_screendump_iff]

/-! ## The polls of a run -/

/-- A poll of the search for the prompt. -/
structure SearchAsk where
  serial : Serial
  request : Request

/-- A poll of the watch of the boot; `final` is the request of the success path. -/
structure BootAsk where
  serial : Serial
  request : Request
  final : Request

/-- A poll of the wait for the live desktop. -/
structure LiveAsk where
  request : Request
  copies : Bool

variable (hexdigest : Bytes → { s : Str // s ≠ [] })

/-- What `qemu_screendump` returns for requests one after another. -/
def dumps : Option Bytes → List Request → List Dump :=
  watched id fun _ file => qemu_screendump hexdigest file

def searchPolls : Option Bytes → List SearchAsk → List Poll :=
  watched SearchAsk.request fun m file => ⟨m.serial, qemu_screendump hexdigest file⟩

def bootPolls : Option Bytes → List BootAsk → List BootPoll :=
  watched BootAsk.request fun m file =>
    ⟨⟨m.serial, qemu_screendump hexdigest file⟩,
      qemu_screendump hexdigest (m.final.leaves file)⟩

def livePolls : Option Bytes → List LiveAsk → List LivePoll :=
  watched LiveAsk.request fun m file => ⟨qemu_screendump hexdigest file, file.getD [], m.copies⟩

/-- A poll of the search without a new dump fails and leaves the count below its threshold. -/
def SearchFresh (file : Option Bytes) (ms : List SearchAsk) : Prop :=
  ∀ k m, k < (search .init (searchPolls hexdigest file ms)).1.length → ms[k]? = some m →
    m.request.dumped = none →
    ((searchPolls hexdigest file ms)[k]?.map fun p => p.dump) = some .failed ∧
      (searchAt (searchPolls hexdigest file ms) (k + 1)).stable_count < STABLE_POLLS

def LiveFresh (file : Option Bytes) (ms : List LiveAsk) : Prop :=
  ∀ k m, k < (run_wait_live (livePolls hexdigest file ms)).states.length → ms[k]? = some m →
    m.request.dumped = none →
    ((livePolls hexdigest file ms)[k]?.map fun p => p.dump) = some .failed ∧
      (liveAt (livePolls hexdigest file ms) (k + 1)).stable_count < STABLE_POLLS

/-- The same for the watch of the boot, which compares captures while the log is quiet. -/
def BootFresh (file : Option Bytes) (s : Search) (ms : List BootAsk) : Prop :=
  ∀ k m, k < (boot s.watch (bootPolls hexdigest file ms)).1.length → ms[k]? = some m →
    m.request.dumped = none → m.serial.Quiet →
    ((bootPolls hexdigest file ms)[k]?.map fun p => p.dump) = some .failed ∧
      (watchAt s (bootPolls hexdigest file ms) (k + 1)).gnome_stable_count < GNOME_STABLE_POLLS

/-! ## Counters -/

variable {hexdigest}

theorem length_search (s : Search) (polls : List Poll) :
    (search s polls).1.length = (Loop.states Search.poll s polls).length := by
  induction polls generalizing s with
  | nil => rfl
  | cons p polls ih =>
    rw [search, Loop.states]
    dsimp only
    split
    · rfl
    · rw [List.length_cons, List.length_cons, ih]

theorem stable_count_poll {s : Search} {p : Poll} (h : s.stable_count < STABLE_POLLS)
    (hopen : (s.poll p).2 = false) : (s.poll p).1.stable_count < STABLE_POLLS := by
  unfold Search.poll at hopen ⊢
  split at hopen
  · cases hopen
  rename_i hserial
  rw [if_neg hserial]
  split at hopen
  · rename_i hfailed
    rw [if_pos hfailed]
    exact Nat.two_pos
  rename_i hfailed
  rw [if_neg hfailed]
  dsimp only at hopen ⊢
  cases hcontent : s.had_content || decide (CONTENT_THRESHOLD < p.dump.brightness) with
  | true =>
    simp only [hcontent, if_true, Bool.true_and, decide_eq_false_iff_not, not_le] at hopen ⊢
    exact hopen
  | false => simpa using h

/-- The count of an iteration that is made has not reached the threshold. -/
theorem stable_count_lt {polls : List Poll} {k : Nat} (hk : k < (search .init polls).1.length) :
    (searchAt polls k).stable_count < STABLE_POLLS := by
  rw [length_search, Loop.lt_length_states_iff] at hk
  obtain ⟨hlt, hopen⟩ := hk
  induction k with
  | zero => exact Nat.two_pos
  | succ k ih =>
    have hbefore := ih (by omega) fun j hj => hopen j (by omega)
    obtain ⟨p, hp⟩ : ∃ p, polls[k]? = some p := ⟨polls[k], List.getElem?_eq_getElem (by omega)⟩
    rw [searchAt, Loop.behind_take_succ hp]
    apply stable_count_poll hbefore
    rw [← Bool.not_eq_true]
    intro hends
    exact hopen k (Nat.lt_succ_self k) ⟨p, hp, hends⟩

/-- A poll of the search that fails leaves the count below its threshold. -/
theorem stable_count_of_failed {polls : List Poll} {k : Nat}
    (hk : k < (search .init polls).1.length) {p : Poll} (hp : polls[k]? = some p)
    (hfailed : ¬ p.dump.Ok) : (searchAt polls (k + 1)).stable_count < STABLE_POLLS := by
  rw [searchAt, Loop.behind_take_succ hp]
  exact (searchSpared_of_failed _ hfailed).stable_count.trans_lt (stable_count_lt hk)

theorem dump_watched (hexdigest : Bytes → { s : Str // s ≠ [] }) {μ π : Type}
    {request : μ → Request} {see : μ → Option Bytes → π} {dump : π → Dump}
    (hsee : ∀ m file, dump (see m file) = qemu_screendump hexdigest file)
    {file : Option Bytes} {ms : List μ} {k : Nat} {m : μ} (hm : ms[k]? = some m)
    (hsilent : (request m).dumped = none) :
    ((watched request see file ms)[k]?.map dump) = some .failed ↔
      ¬ Readable (held file ((ms.take k).map request)) := by
  rw [getElem?_watched, hm, Option.map_some, Option.map_some, Option.some_inj, hsee,
    leaves_of_silent hsilent, screendump_failed_iff]

/-- The count stays below its threshold exactly if the hash is not that of the capture before. -/
theorem gnome_stable_count_lt_iff (s : Search) {boots : List BootPoll} {k : Nat}
    (hk : k < (boot s.watch boots).1.length) {b : BootPoll} (hb : boots[k]? = some b)
    (hquiet : b.serial.Quiet) :
    (watchAt s boots (k + 1)).gnome_stable_count < GNOME_STABLE_POLLS ↔
      b.dump.md5 ≠ lastHash s.prev_hash (boots.take k) := by
  have hcount : (watchAt s boots (k + 1)).gnome_stable_count =
      if b.dump.md5 = lastHash s.prev_hash (boots.take k) then
        (watchAt s boots k).gnome_stable_count + 1
      else 0 := by
    rw [watchAt, Loop.behind_take_succ hb, ← (watchTracks_at s hk).prev_hash]
    exact (poll_counts _ hquiet).2
  rw [hcount]
  split
  · rename_i hsame
    exact iff_of_false (by simp [GNOME_STABLE_POLLS]) (not_not_intro hsame)
  · rename_i hne
    exact iff_of_true Nat.one_pos hne

/-- The capture before one without a new dump has failed if the file cannot be read. -/
theorem lastHash_of_unreadable {file : Option Bytes} (reference : Str) {ms : List BootAsk}
    {k : Nat} (hk : k < ms.length)
    (hno : ¬ Readable (held file ((ms.take (k + 1)).map (·.request)))) :
    lastHash reference ((bootPolls hexdigest file ms).take (k + 1)) = [] := by
  have hm : ms[k]? = some ms[k] := List.getElem?_eq_getElem hk
  obtain ⟨c, hc⟩ : ∃ c, (bootPolls hexdigest file ms)[k]? = some c := by
    rw [bootPolls, getElem?_watched, hm]
    exact ⟨_, rfl⟩
  have hfailed : c.dump = .failed := by
    rw [bootPolls, getElem?_watched, hm] at hc
    rw [← Option.some.inj hc]
    rw [List.take_add_one, hm, List.map_append, Option.toList_some, List.map_singleton,
      held_concat] at hno
    exact (screendump_failed_iff _ _).mpr hno
  rw [lastHash, List.take_add_one, hc, Option.toList_some, List.getLast?_concat, Option.map_some,
    hfailed]
  rfl

/-- In the watch of the boot, a capture without a new dump repeats the one before it. -/
theorem bootFresh_at (file : Option Bytes) (s : Search) {ms : List BootAsk} {k : Nat}
    (hk : k < (boot s.watch (bootPolls hexdigest file ms)).1.length) {m : BootAsk}
    (hm : ms[k]? = some m) (hsilent : m.request.dumped = none) (hquiet : m.serial.Quiet) :
    (((bootPolls hexdigest file ms)[k]?.map fun p => p.dump) = some .failed ∧
      (watchAt s (bootPolls hexdigest file ms) (k + 1)).gnome_stable_count <
        GNOME_STABLE_POLLS) ↔
      ¬ Readable file ∧ k = 0 ∧ s.prev_hash ≠ [] := by
  have hdump : ((bootPolls hexdigest file ms)[k]?.map fun p => p.dump) = some .failed ↔
      ¬ Readable (held file ((ms.take k).map (·.request))) := by
    apply dump_watched hexdigest _ hm hsilent
    intro _ _
    rfl
  obtain ⟨b, hb⟩ : ∃ b, (bootPolls hexdigest file ms)[k]? = some b := by
    rw [bootPolls, getElem?_watched, hm]
    exact ⟨_, rfl⟩
  have hserial : b.serial = m.serial := by
    rw [bootPolls, getElem?_watched, hm] at hb
    rw [← Option.some.inj hb]
  have hmd5 : ¬ Readable (held file ((ms.take k).map (·.request))) → b.dump.md5 = [] := by
    intro hno
    have hfailed := hdump.mpr hno
    rw [hb, Option.map_some, Option.some_inj, eq_failed_iff] at hfailed
    exact Dump.md5_of_failed hfailed
  rw [hdump, gnome_stable_count_lt_iff s hk hb (hserial ▸ hquiet)]
  cases k with
  | zero =>
    change ¬ Readable file ∧ b.dump.md5 ≠ s.prev_hash ↔ _
    rw [and_congr_right_iff]
    intro hno
    rw [hmd5 hno]
    exact ⟨fun h => ⟨rfl, h.symm⟩, fun h => h.2.symm⟩
  | succ k =>
    refine iff_of_false ?_ (fun h => absurd h.2.1 (Nat.succ_ne_zero k))
    rintro ⟨hno, hne⟩
    have hlt : k < ms.length := by
      have := (List.getElem?_eq_some_iff.mp hm).1
      omega
    exact hne ((hmd5 hno).trans (lastHash_of_unreadable s.prev_hash hlt hno).symm)

theorem dumps_silent_iff (file : Option Bytes) (rs : List Request) :
    (∀ (k : Nat) (r : Request), rs[k]? = some r → r.dumped = none →
        (dumps hexdigest file rs)[k]? = some .failed) ↔
      ∀ (k : Nat) (r : Request), rs[k]? = some r → r.dumped = none →
        ¬ Readable (held file (rs.take k)) := by
  apply forall₄_congr
  intro k r hr hsilent
  rw [dumps, getElem?_watched, hr, Option.map_some, Option.some_inj, List.map_id]
  dsimp only [id]
  rw [leaves_of_silent hsilent, screendump_failed_iff]

/-- In the search, a poll that fails never brings the count to its threshold. -/
theorem searchFresh_iff (file : Option Bytes) (ms : List SearchAsk) :
    SearchFresh hexdigest file ms ↔
      ∀ (k : Nat) (m : SearchAsk),
        k < (search .init (searchPolls hexdigest file ms)).1.length → ms[k]? = some m →
        m.request.dumped = none → ¬ Readable (held file ((ms.take k).map (·.request))) := by
  apply forall₅_congr
  intro k m hk hm hsilent
  have hdump : ((searchPolls hexdigest file ms)[k]?.map fun p => p.dump) = some .failed ↔
      ¬ Readable (held file ((ms.take k).map (·.request))) := by
    apply dump_watched hexdigest _ hm hsilent
    intro _ _
    rfl
  rw [hdump, and_iff_left_iff_imp]
  intro hno
  obtain ⟨p, hp, hpd⟩ := Option.map_eq_some_iff.mp (hdump.mpr hno)
  exact stable_count_of_failed hk hp ((eq_failed_iff _).mp hpd)

theorem liveFresh_iff (file : Option Bytes) (ms : List LiveAsk) :
    LiveFresh hexdigest file ms ↔
      ∀ (k : Nat) (m : LiveAsk),
        k < (run_wait_live (livePolls hexdigest file ms)).states.length → ms[k]? = some m →
        m.request.dumped = none → ¬ Readable (held file ((ms.take k).map (·.request))) := by
  apply forall₅_congr
  intro k m hk hm hsilent
  have hdump : ((livePolls hexdigest file ms)[k]?.map fun p => p.dump) = some .failed ↔
      ¬ Readable (held file ((ms.take k).map (·.request))) := by
    apply dump_watched hexdigest _ hm hsilent
    intro _ _
    rfl
  rw [hdump, and_iff_left_iff_imp]
  intro hno
  obtain ⟨p, hp, hpd⟩ := Option.map_eq_some_iff.mp (hdump.mpr hno)
  rw [liveAt, Loop.behind_take_succ hp,
    (liveSpared_of_failed _ ((eq_failed_iff _).mp hpd)).stable_count]
  exact Nat.two_pos

theorem bootFresh_iff (file : Option Bytes) (s : Search) (ms : List BootAsk) :
    BootFresh hexdigest file s ms ↔
      ∀ (k : Nat) (m : BootAsk),
        k < (boot s.watch (bootPolls hexdigest file ms)).1.length → ms[k]? = some m →
        m.request.dumped = none → m.serial.Quiet →
        ¬ Readable file ∧ k = 0 ∧ s.prev_hash ≠ [] := by
  apply forall₅_congr
  intro k m hk hm hsilent
  apply forall_congr'
  intro hquiet
  exact bootFresh_at file s hk hm hsilent hquiet

/-- **When stability rests on fresh dumps.** A request without a new dump fails exactly if the
file at the path cannot be read. In the search and in the wait for the live desktop the count
is then left below its threshold. In the watch of the boot, two captures that failed in a row
are equal too, so there it is only at the first poll, with a hash to compare with. -/
theorem dumps_fresh_iff (hexdigest : Bytes → { s : Str // s ≠ [] }) :
    (∀ file rs, (∀ (k : Nat) (r : Request), rs[k]? = some r → r.dumped = none →
        (dumps hexdigest file rs)[k]? = some .failed) ↔
      ∀ (k : Nat) (r : Request), rs[k]? = some r → r.dumped = none →
        ¬ Readable (held file (rs.take k))) ∧
    (∀ file ms, SearchFresh hexdigest file ms ↔
      ∀ (k : Nat) (m : SearchAsk),
        k < (search .init (searchPolls hexdigest file ms)).1.length → ms[k]? = some m →
        m.request.dumped = none → ¬ Readable (held file ((ms.take k).map (·.request)))) ∧
    (∀ file ms, LiveFresh hexdigest file ms ↔
      ∀ (k : Nat) (m : LiveAsk),
        k < (run_wait_live (livePolls hexdigest file ms)).states.length → ms[k]? = some m →
        m.request.dumped = none → ¬ Readable (held file ((ms.take k).map (·.request)))) ∧
    (∀ file s ms, BootFresh hexdigest file s ms ↔
      ∀ (k : Nat) (m : BootAsk),
        k < (boot s.watch (bootPolls hexdigest file ms)).1.length → ms[k]? = some m →
        m.request.dumped = none → m.serial.Quiet →
        ¬ Readable file ∧ k = 0 ∧ s.prev_hash ≠ []) :=
  ⟨dumps_silent_iff, searchFresh_iff, liveFresh_iff, bootFresh_iff⟩

/-- One dump, and then a monitor that does not answer. -/
def stopped : List SearchAsk :=
  ⟨.unknown, 0, some (ascii "P6\n1 1\n255\n" ++ [9, 9, 9])⟩ ::
    List.replicate 3 ⟨.unknown, 1, none⟩

/-- The first dump is read again at the next poll. -/
theorem stale_dump_read :
    ¬ ∀ hexdigest file ms, SearchFresh hexdigest file ms := by
  intro h
  have hpolled : 1 < (search .init (searchPolls digest none stopped)).1.length := by
    decide +kernel
  have hfailed := (h digest none stopped 1 ⟨.unknown, 1, none⟩ hpolled rfl rfl).1
  rw [searchPolls, getElem?_watched] at hfailed
  exact absurd hfailed (by decide +kernel)

/-- The passphrase is typed at the third one. -/
example : .qemu_send_passphrase ∈
    (run_qemu (searchPolls digest none stopped) []).search[2]?.getD [] := by
  decide +kernel

end XfceLinux.Luks
