import XfceLinux.Dashboard.TailLog

/-!
# Tailing a log that only grows

Schedules in which nothing is truncated and the whole file has been read in the end
(`Whole`). Such a schedule hands on the lines of the decoded file, and keeps their rest, if
and only if each of its reads begins between two units of the UTF-8 encoding and completes
no line that makes `parse_line` raise before another line (`tail_independent_iff`).
-/

namespace XfceLinux.Dashboard

open Lib Lib.Text Lib.Lines

/-! ## Runs without truncation -/

/-- The tailer has read a beginning of the file. -/
structure Following (w : LogWorld) : Prop where
  got : w.tailer.got = w.content.take w.tailer.pos
  pos : w.tailer.pos ≤ w.content.length
  size : ∀ n ∈ w.size, w.tailer.pos < n ∧ n ≤ w.content.length

theorem Following.restart {w : LogWorld} (h : Following w) {bs : Bytes}
    (hf : w.file = some bs) : w.tailer.restart bs.length = w.tailer := by
  have hpos := h.pos
  simp only [LogWorld.content, hf, Option.getD_some] at hpos
  rw [Tailer.restart, if_neg (Nat.not_lt.mpr hpos)]

theorem Following.file {w : LogWorld} (h : Following w) {n : Nat} (hn : w.size = some n) :
    w.file ≠ none := by
  intro hf
  have := h.size n hn
  simp only [LogWorld.content, hf, Option.getD_none, List.length_nil] at this
  omega

theorem Following.step {w : LogWorld} (h : Following w) (host : Host) {e : LogEvent}
    (he : e ≠ .truncate) : Following (w.step host e) := by
  obtain ⟨hgot, hpos, hsize⟩ := id h
  cases e with
  | truncate => exact absurd rfl he
  | append bs =>
    refine ⟨?_, ?_, fun n hn => ?_⟩
    · simpa [LogWorld.step, List.take_append_of_le_length hpos] using hgot
    · simp only [LogWorld.step, LogWorld.content_mk, List.length_append]
      omega
    · have := hsize n hn
      simp only [LogWorld.step, LogWorld.content_mk, List.length_append]
      omega
  | stat mtime =>
    rcases w.step_stat_cases host mtime with he | ⟨bs, hs, hf, ⟨hlt, he⟩ | ⟨-, he⟩⟩
    · rw [he]
      exact h
    · rw [h.restart hf] at hlt he
      rw [he]
      refine ⟨hgot, hpos, ?_⟩
      rintro n ⟨⟩
      exact ⟨hlt, by simp [LogWorld.content, hf]⟩
    · rw [h.restart hf] at he
      obtain ⟨hp, -, -, hg⟩ := w.tailer.caughtUp_frame mtime
      rw [he]
      exact ⟨by rw [hg, hp]; exact hgot, by rw [hp]; exact hpos, by rw [hp]; exact hsize⟩
  | read clocks =>
    cases hs : w.size with
    | none =>
      rw [LogWorld.step_read_none hs]
      exact h
    | some n =>
      obtain ⟨hlt, hle⟩ := hsize n hs
      rw [LogWorld.step_read hs (h.file hs)]
      refine ⟨?_, hle, by simp⟩
      change w.tailer.got ++ w.chunk n = w.content.take n
      rw [hgot, LogWorld.chunk, Tailer.chunk, ← List.take_add]
      congr 1
      omega

theorem reads_run {host : Host} {es : List LogEvent} (h : .truncate ∉ es) :
    Following (LogWorld.run host es {}) ∧
      ∃ T, Reads (LogWorld.run host es {}).tailer T
        (LogWorld.Along host LogWorld.WholeUnits {} es)
        (LogWorld.Along host (LogWorld.KeepsLines host) {} es) := by
  induction es using List.reverseRecOn with
  | nil =>
    exact ⟨⟨rfl, le_rfl, by simp [LogWorld.run]⟩, [], reads_init⟩
  | append_singleton es e ih =>
    obtain ⟨hfollow, T, hT⟩ := ih fun hm => h (List.mem_append_left _ hm)
    have he : e ≠ .truncate :=
      fun he => h (he ▸ List.mem_append_right _ (List.mem_singleton_self _))
    rw [LogWorld.run_append]
    refine ⟨hfollow.step host he, ?_⟩
    simp only [LogWorld.along_append, LogWorld.Along, and_true]
    generalize LogWorld.run host es {} = w at hfollow hT
    change ∃ T, Reads (w.step host e).tailer T _ _
    cases e with
    | truncate => exact absurd rfl he
    | append bs =>
      exact ⟨T, hT.congr (by simp [LogWorld.WholeUnits]) (by simp [LogWorld.KeepsLines])⟩
    | stat mtime =>
      simp only [LogWorld.WholeUnits, LogWorld.KeepsLines, and_true]
      refine ⟨T, ?_⟩
      rcases w.step_stat_cases host mtime with he | ⟨bs, -, hf, ⟨-, he⟩ | ⟨-, he⟩⟩
      · rw [he]
        exact hT
      · rw [he, hfollow.restart hf]
        exact hT
      · rw [he, hfollow.restart hf]
        exact hT.caughtUp mtime
    | read clocks =>
      cases hs : w.size with
      | none =>
        rw [LogWorld.step_read_none hs]
        refine ⟨T, hT.congr ?_ ?_⟩
        · simp [LogWorld.WholeUnits, hs]
        · simp [LogWorld.KeepsLines, hs]
      | some n =>
        refine ⟨T ++ Utf8.decode (w.chunk n), ?_⟩
        rw [LogWorld.step_read hs (hfollow.file hs)]
        refine (hT.feed host clocks n (w.chunk n)).congr ?_ ?_
        · simp [LogWorld.WholeUnits, hs]
        · simp [LogWorld.KeepsLines, hs]

theorem content_prefix {host : Host} {es : List LogEvent} (h : .truncate ∉ es)
    (w : LogWorld) : w.content <+: (LogWorld.run host es w).content := by
  induction es generalizing w with
  | nil => exact List.prefix_rfl
  | cons e es ih =>
    refine List.IsPrefix.trans ?_ (ih (fun hm => h (List.mem_cons_of_mem _ hm)) (w.step host e))
    cases e with
    | truncate => exact absurd List.mem_cons_self h
    | append bs => exact List.prefix_append _ _
    | stat mtime =>
      have hsame : (w.step host (.stat mtime)).content = w.content := by
        rcases w.step_stat_cases host mtime with he | ⟨bs, -, -, ⟨-, he⟩ | ⟨-, he⟩⟩
        · rw [he]
        · rw [he]
          rfl
        · rw [he]
          rfl
      rw [hsame]
    | read clocks =>
      simp only [LogWorld.step]
      split <;> exact List.prefix_rfl

/-! ## Schedules that read the whole file -/

/-- Nothing is truncated, `bs` is appended in all, and it has been read. -/
structure Whole (host : Host) (es : List LogEvent) (bs : Bytes) : Prop where
  grows : .truncate ∉ es
  content : (LogWorld.run host es {}).content = bs
  idle : (LogWorld.run host es {}).size = none
  read : (LogWorld.run host es {}).tailer.pos = bs.length

/-- Every read begins between two units and loses no line. -/
def CleanRun (host : Host) (w : LogWorld) (es : List LogEvent) : Prop :=
  LogWorld.Along host LogWorld.WholeUnits w es ∧
    LogWorld.Along host (LogWorld.KeepsLines host) w es

/-- The tailer has handed on the lines of the decoded bytes and kept their rest. -/
def Exact (t : Tailer) (bs : Bytes) : Prop :=
  t.handed = lines '\n' (Utf8.decode bs) ∧ t.buf = rest '\n' (Utf8.decode bs)

theorem Whole.exact_iff {host : Host} {es : List LogEvent} {bs : Bytes} (h : Whole host es bs) :
    Exact (LogWorld.run host es {}).tailer bs ↔ CleanRun host {} es := by
  obtain ⟨hfollow, T, hT⟩ := @reads_run host _ h.grows
  have hgot := hfollow.got
  rw [h.content, h.read, List.take_length] at hgot
  have := hT.exact_iff
  rwa [hgot] at this

/-- One poll for each piece that is appended. -/
def poll (p : Bytes) : List LogEvent := [.append p, .stat none, .read fun _ => ⟨0, 0⟩]

/-- Between two rounds, with everything read. -/
structure AtEnd (w : LogWorld) : Prop extends Following w where
  idle : w.size = none
  read : w.tailer.pos = w.content.length

theorem AtEnd.got_eq {w : LogWorld} (h : AtEnd w) : w.tailer.got = w.content := by
  rw [h.got, h.read, List.take_length]

theorem AtEnd.run_poll {w : LogWorld} (h : AtEnd w) (host : Host) {p : Bytes} (hp : p ≠ []) :
    LogWorld.run host (poll p) w =
        ⟨some (w.content ++ p),
          w.tailer.feed host (fun _ => ⟨0, 0⟩) (w.content ++ p).length p, none⟩ ∧
      (CleanRun host w (poll p) ↔ ¬ Utf8.Splits w.content p ∧
        NoLoss host (lines '\n' (w.tailer.buf ++ Utf8.decode p))) := by
  have hlen : 0 < p.length := List.length_pos_iff.mpr hp
  have hstat : LogWorld.run host [.append p, .stat none] w =
      ⟨some (w.content ++ p), w.tailer, some (w.content ++ p).length⟩ := by
    have hrestart : w.tailer.restart (w.content ++ p).length = w.tailer := by
      rw [Tailer.restart, if_neg]
      rw [h.read, List.length_append]
      omega
    simp only [LogWorld.run, List.foldl_cons, List.foldl_nil, LogWorld.step, h.idle, hrestart]
    rw [if_pos]
    rw [h.read, List.length_append]
    omega
  have hchunk : w.tailer.chunk (w.content ++ p).length (w.content ++ p) = p := by
    rw [Tailer.chunk, h.read, List.drop_left, List.length_append, Nat.add_sub_cancel_left,
      List.take_length]
  have hpoll : poll p = [.append p, .stat none] ++ [.read fun _ => ⟨0, 0⟩] := rfl
  constructor
  · rw [hpoll, LogWorld.run_append, hstat]
    simp only [LogWorld.run, List.foldl_cons, List.foldl_nil, LogWorld.step, hchunk]
  · rw [CleanRun, hpoll, LogWorld.along_append, LogWorld.along_append, hstat]
    simp [LogWorld.Along, LogWorld.WholeUnits, LogWorld.KeepsLines, LogWorld.chunk, hchunk,
      h.got_eq, -List.length_append]

/-- Polling where a unit begins, and at most one line further, loses nothing. -/
theorem AtEnd.clean_poll {w : LogWorld} (h : AtEnd w) (host : Host) {p : Bytes} (hp : p ≠ [])
    (hafter : Utf8.after w.content = none) (hbuf : '\n' ∉ w.tailer.buf)
    (hcount : p.count 10 ≤ 1) : CleanRun host w (poll p) := by
  rw [(h.run_poll host hp).2]
  refine ⟨fun ⟨q, hq, _⟩ => ?_, fun l hl => ?_⟩
  · rw [hafter] at hq
    cases hq
  · have hlen : (lines '\n' (w.tailer.buf ++ Utf8.decode p)).length ≤ 1 := by
      rw [length_lines, List.count_append, List.count_eq_zero.mpr hbuf, Utf8.count_decode]
      omega
    have := List.length_pos_of_mem hl
    rw [List.length_dropLast] at this
    omega

/-- A clean schedule that has read all of `bs`, with the tailer between two lines or behind
the last one. -/
def CleanlyRead (host : Host) (bs : Bytes) : Prop :=
  ∃ es, .truncate ∉ es ∧ AtEnd (LogWorld.run host es {}) ∧
    (LogWorld.run host es {}).content = bs ∧ '\n' ∉ (LogWorld.run host es {}).tailer.buf ∧
    CleanRun host {} es

theorem CleanlyRead.append {host : Host} {bs p : Bytes} (h : CleanlyRead host bs)
    (hafter : Utf8.after bs = none) (hcount : p.count 10 ≤ 1) : CleanlyRead host (bs ++ p) := by
  by_cases hp : p = []
  · rwa [hp, List.append_nil]
  obtain ⟨es, hgrows, hend, rfl, hbuf, hclean⟩ := h
  have hgrows' : .truncate ∉ es ++ poll p := by simpa [poll] using hgrows
  have hrun := (hend.run_poll host hp).1
  have hp' := hend.clean_poll host hp hafter hbuf hcount
  have hfollow := (@reads_run host _ hgrows').1
  refine ⟨es ++ poll p, hgrows', ⟨hfollow, ?_, ?_⟩, ?_, ?_, ?_⟩
  · rw [LogWorld.run_append, hrun]
  · rw [LogWorld.run_append, hrun]
    rfl
  · rw [LogWorld.run_append, hrun]
    rfl
  · rw [LogWorld.run_append, hrun]
    exact notMem_rest _
  · exact ⟨LogWorld.along_append.mpr ⟨hclean.1, hp'.1⟩,
      LogWorld.along_append.mpr ⟨hclean.2, hp'.2⟩⟩

theorem cleanlyRead_unlines (host : Host) {ls : List Bytes} (h : ∀ l ∈ ls, 10 ∉ l) :
    CleanlyRead host (unlines 10 ls) ∧ Utf8.after (unlines 10 ls) = none := by
  induction ls using List.reverseRecOn with
  | nil =>
    refine ⟨⟨[], by simp, ⟨(@reads_run host [] (by simp)).1, rfl, rfl⟩, rfl, by simp [LogWorld.run],
      trivial, trivial⟩, rfl⟩
  | append_singleton ls l ih =>
    obtain ⟨hread, hafter⟩ := ih fun m hm => h m (List.mem_append_left _ hm)
    have hl : l.count 10 = 0 := List.count_eq_zero.mpr (h l (by simp))
    have happ : unlines 10 (ls ++ [l]) = unlines 10 ls ++ (l ++ [10]) := by simp [unlines]
    rw [happ]
    refine ⟨hread.append hafter (by simp [hl]), ?_⟩
    rw [← List.append_assoc]
    exact Utf8.after_newline _

/-- Reading line by line is clean. -/
theorem cleanlyRead (host : Host) (bs : Bytes) : CleanlyRead host bs := by
  obtain ⟨hread, hafter⟩ := cleanlyRead_unlines host fun l (hl : l ∈ lines 10 bs) => notMem_lines hl
  have hrest : (rest 10 bs).count 10 = 0 := List.count_eq_zero.mpr (notMem_rest bs)
  have := @CleanlyRead.append host _ (rest 10 bs) hread hafter (by omega)
  rwa [unlines_lines_append_rest] at this

theorem exists_clean (host : Host) (bs : Bytes) :
    ∃ es, Whole host es bs ∧ CleanRun host {} es := by
  obtain ⟨es, hgrows, hend, hcontent, -, hclean⟩ := cleanlyRead host bs
  exact ⟨es, ⟨hgrows, hcontent, hend.idle, hcontent ▸ hend.read⟩, hclean⟩

theorem Whole.chunk_eq {host : Host} {pre post : List LogEvent} {e : LogEvent} {bs : Bytes}
    (h : Whole host (pre ++ e :: post) bs) (n : Nat) :
    ∃ more, bs = (LogWorld.run host pre {}).tailer.got ++
      ((LogWorld.run host pre {}).chunk n ++ more) := by
  have hpre : .truncate ∉ pre := fun hm => h.grows (List.mem_append_left _ hm)
  have hpost : .truncate ∉ e :: post := fun hm => h.grows (List.mem_append_right _ hm)
  have hfollow := (@reads_run host _ hpre).1
  obtain ⟨more, hmore⟩ := content_prefix hpost (LogWorld.run host pre {})
  rw [← LogWorld.run_append, h.content] at hmore
  generalize LogWorld.run host pre {} = w at hfollow hmore
  refine ⟨(w.content.drop w.tailer.pos).drop (n - w.tailer.pos) ++ more, ?_⟩
  rw [LogWorld.chunk, Tailer.chunk, ← List.append_assoc, ← List.append_assoc, List.append_assoc _
    ((w.content.drop w.tailer.pos).take _), List.take_append_drop, hfollow.got,
    List.take_append_drop, hmore]

theorem Whole.clean {host : Host} {es : List LogEvent} {bs : Bytes} (h : Whole host es bs)
    (hunits : ∀ as cs, bs = as ++ cs → ¬ Utf8.Splits as cs)
    (hlines : NoLoss host (lines '\n' (Utf8.decode bs))) : CleanRun host {} es := by
  have hwhole : LogWorld.Along host LogWorld.WholeUnits {} es := by
    refine LogWorld.along_iff.mpr fun pre e post heq => ?_
    subst heq
    cases e with
    | append _ | truncate | stat _ => trivial
    | read clocks =>
      intro n hn hs
      obtain ⟨more, hmore⟩ := h.chunk_eq n
      exact hunits _ _ hmore (hs.append more)
  refine ⟨hwhole, LogWorld.along_iff.mpr fun pre e post heq => ?_⟩
  subst heq
  cases e with
  | append _ | truncate | stat _ => trivial
  | read clocks =>
    intro n hn
    obtain ⟨more, hmore⟩ := h.chunk_eq n
    obtain ⟨-, T, hT⟩ := @reads_run host pre fun hm => h.grows (List.mem_append_left _ hm)
    have hpre := (LogWorld.along_append.mp hwhole).1
    have hdecoded := (hT.text.resolve_right fun htorn => htorn.1 hpre).2
    generalize LogWorld.run host pre {} = w at hn hT hmore hdecoded
    -- the new lines stand between those handed on before and those of the rest of the file
    have hchunk : ¬ Utf8.Splits w.tailer.got (w.chunk n) :=
      fun hs => hunits _ _ hmore (hs.append more)
    have hthree : Utf8.decode bs = T ++ Utf8.decode (w.chunk n) ++ Utf8.decode more := by
      rw [← List.append_assoc] at hmore
      rw [hmore, Utf8.decode_append (hunits _ _ hmore), Utf8.decode_append hchunk, ← hdecoded]
    rw [hthree, lines_append, lines_append, ← hT.buf] at hlines
    exact hlines.infix

theorem whole_polls (host : Host) {as cs : Bytes} (has : as ≠ []) (hcs : cs ≠ []) :
    Whole host (poll as ++ poll cs) (as ++ cs) ∧
      (CleanRun host {} (poll as ++ poll cs) → ¬ Utf8.Splits as cs) := by
  have hinit : AtEnd {} := ⟨(@reads_run host [] (by simp)).1, rfl, rfl⟩
  have hfirst := hinit.run_poll host has
  have hend : AtEnd (LogWorld.run host (poll as) {}) := by
    refine ⟨(@reads_run host (poll as) (by simp [poll])).1, ?_, ?_⟩
    · rw [hfirst.1]
    · rw [hfirst.1]
      rfl
  have hsecond := hend.run_poll host hcs
  have hcontent : (LogWorld.run host (poll as) {}).content = as := by
    rw [hfirst.1]
    rfl
  rw [hcontent] at hsecond
  refine ⟨⟨by simp [poll], ?_, ?_, ?_⟩, fun hclean => ?_⟩
  · rw [LogWorld.run_append, hsecond.1]
    rfl
  · rw [LogWorld.run_append, hsecond.1]
  · rw [LogWorld.run_append, hsecond.1]
    rfl
  · exact (hsecond.2.mp ⟨(LogWorld.along_append.mp hclean.1).2,
      (LogWorld.along_append.mp hclean.2).2⟩).1

theorem whole_poll (host : Host) {bs : Bytes} (hbs : bs ≠ []) :
    Whole host (poll bs) bs ∧
      (CleanRun host {} (poll bs) → NoLoss host (lines '\n' (Utf8.decode bs))) := by
  have hinit : AtEnd {} := ⟨(@reads_run host [] (by simp)).1, rfl, rfl⟩
  have hpoll := hinit.run_poll host hbs
  refine ⟨⟨by simp [poll], ?_, ?_, ?_⟩, fun hclean => (hpoll.2.mp hclean).2⟩
  · rw [hpoll.1]
    rfl
  · rw [hpoll.1]
  · rw [hpoll.1]
    rfl

/-- The same lines handed on, and the same rest. -/
def SameOutcome (t u : Tailer) : Prop := t.handed = u.handed ∧ t.buf = u.buf

/-- **Polling schedules.** All schedules of polls that read the whole of `bs` hand on the
same lines and keep the same rest if and only if no place in `bs` lies inside a unit of
several bytes and no complete line but the last makes `parse_line` raise. One schedule
hands on the lines of the decoded file, and keeps their rest, if and only if each of its
reads begins between two units and completes no line that raises before another line. -/
theorem tail_independent_iff (host : Host) (bs : Bytes) :
    ((∀ es fs, Whole host es bs → Whole host fs bs →
        SameOutcome (LogWorld.run host es {}).tailer (LogWorld.run host fs {}).tailer) ↔
      (∀ as cs, bs = as ++ cs → ¬ Utf8.Splits as cs) ∧
        NoLoss host (lines '\n' (Utf8.decode bs))) ∧
    ∀ es, Whole host es bs →
      (Exact (LogWorld.run host es {}).tailer bs ↔ CleanRun host {} es) := by
  refine ⟨⟨fun h => ?_, fun ⟨hunits, hlines⟩ es fs hes hfs => ?_⟩, fun es hes => hes.exact_iff⟩
  · obtain ⟨fs, hfs, hclean⟩ := exists_clean host bs
    have hexact := hfs.exact_iff.mpr hclean
    have hall : ∀ es, Whole host es bs → CleanRun host {} es := by
      intro es hes
      obtain ⟨hhanded, hbuf⟩ := h es fs hes hfs
      exact hes.exact_iff.mp ⟨hhanded.trans hexact.1, hbuf.trans hexact.2⟩
    constructor
    · rintro as cs rfl hs
      have has : as ≠ [] := by
        rintro rfl
        exact Utf8.not_splits_nil_left cs hs
      have hcs : cs ≠ [] := by
        rintro rfl
        obtain ⟨p, -, b, hb, -⟩ := hs
        cases hb
      have hpolls := whole_polls host has hcs
      exact hpolls.2 (hall _ hpolls.1) hs
    · by_cases hbs : bs = []
      · subst hbs
        intro l hl
        cases hl
      · have hpoll := whole_poll host hbs
        exact hpoll.2 (hall _ hpoll.1)
  · obtain ⟨h₁, h₂⟩ := hes.exact_iff.mpr (hes.clean hunits hlines)
    obtain ⟨h₃, h₄⟩ := hfs.exact_iff.mpr (hfs.clean hunits hlines)
    exact ⟨h₁.trans h₃.symm, h₂.trans h₄.symm⟩

/-- The two bytes of `é`, polled together and one by one. -/
theorem cut_character_differs :
    ¬ ∀ (host : Host) (bs : Bytes) (es fs : List LogEvent), Whole host es bs → Whole host fs bs →
      SameOutcome (LogWorld.run host es {}).tailer (LogWorld.run host fs {}).tailer := by
  intro h
  have htogether := (@whole_poll Host.root [0xC3, 0xA9] (by simp)).1
  have hapart := (@whole_polls Host.root [0xC3] [0xA9] (by simp) (by simp)).1
  have hsame := h Host.root _ _ _ htogether hapart
  exact absurd hsame.2 (by decide)

end XfceLinux.Dashboard
