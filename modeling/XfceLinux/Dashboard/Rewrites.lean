import XfceLinux.Dashboard.TailLog

/-!
# Tailing a log that is rewritten

The tailer sees a rewritten log only by a size smaller than what it has read. While every
look at the file finds it shrunk or still beginning with the bytes read
(`SeesRewrites`), a round of `tail_log` that ends at the end of the file has handed on the
lines of its present content since the last reset (`rewritten_log_read_from_start`).
-/

namespace XfceLinux.Dashboard

open Lib Lib.Text Lib.Lines

/-- The step ends a round of `tail_log` that has found the file. -/
def EndsRound (host : Host) (w : LogWorld) : LogEvent → Prop
  | .stat mtime => w.size = none ∧ w.file ≠ none ∧ (w.step host (.stat mtime)).size = none
  | .read _ => w.size ≠ none
  | _ => False

/-- The file still begins with the bytes read. -/
def Unrewritten (w : LogWorld) : Prop := w.tailer.got <+: w.content

/-- A round that finds as many bytes as it has read finds the same bytes. A read finds the
bytes read before, and as many more as the round has seen; it begins between two units and
loses no line. -/
def SeesRewrites (host : Host) (w : LogWorld) : LogEvent → Prop
  | .stat _ => w.size = none → w.content.length = w.tailer.pos → Unrewritten w
  | .read clocks => ∀ n ∈ w.size, Unrewritten w ∧ n ≤ w.content.length ∧
    w.WholeUnits (.read clocks) ∧ w.KeepsLines host (.read clocks)
  | _ => True

instance (host : Host) (w : LogWorld) : (e : LogEvent) → Decidable (EndsRound host w e)
  | .stat _ => inferInstanceAs (Decidable (_ ∧ _ ∧ _))
  | .read _ => inferInstanceAs (Decidable (_ ≠ _))
  | .append _ | .truncate => inferInstanceAs (Decidable False)

instance (w : LogWorld) : Decidable (Unrewritten w) := inferInstanceAs (Decidable (_ <+: _))

instance (host : Host) (w : LogWorld) : (e : LogEvent) → Decidable (SeesRewrites host w e)
  | .stat _ => inferInstanceAs (Decidable (_ → _ → _))
  | .read _ => inferInstanceAs (Decidable (∀ n ∈ w.size, _))
  | .append _ | .truncate => inferInstanceAs (Decidable True)

/-- The tailer has handed on the lines of the bytes read since the last reset. -/
structure Consistent (w : LogWorld) : Prop where
  pos : w.tailer.got.length = w.tailer.pos
  size : ∀ n ∈ w.size, w.tailer.pos < n
  reads : Reads w.tailer (Utf8.decode w.tailer.got) True True

theorem consistent_init : Consistent {} := ⟨rfl, by simp, reads_init⟩

theorem Consistent.restart {w : LogWorld} (h : Consistent w) (size : Nat) :
    (w.tailer.restart size).got.length = (w.tailer.restart size).pos ∧
      Reads (w.tailer.restart size) (Utf8.decode (w.tailer.restart size).got) True True := by
  unfold Tailer.restart
  split
  · obtain ⟨h₁, h₂, h₃, h₄⟩ := reads_init
    exact ⟨rfl, h₁, h₂, h₃, h₄⟩
  · exact ⟨h.pos, h.reads⟩

theorem Consistent.file {w : LogWorld} (h : Consistent w) {n : Nat} (hn : w.size = some n)
    (hle : n ≤ w.content.length) : w.file ≠ none := by
  intro hf
  have := h.size n hn
  simp only [LogWorld.content, hf, Option.getD_none, List.length_nil] at hle
  omega

theorem Unrewritten.got_append {w : LogWorld} (h : Unrewritten w) (hc : Consistent w) {n : Nat}
    (hn : n ∈ w.size) : w.tailer.got ++ w.chunk n = w.content.take n := by
  obtain ⟨more, hmore⟩ := h
  have hlt := hc.size n hn
  have hlen := hc.pos
  have htake : w.tailer.got.take n = w.tailer.got := List.take_of_length_le (by omega)
  rw [LogWorld.chunk, Tailer.chunk, ← hmore, ← hlen, List.drop_left, List.take_append, htake]

theorem Consistent.step {w : LogWorld} (h : Consistent w) {host : Host} {e : LogEvent}
    (he : SeesRewrites host w e) : Consistent (w.step host e) := by
  cases e with
  | append bs => exact ⟨h.pos, h.size, h.reads⟩
  | truncate => exact ⟨h.pos, h.size, h.reads⟩
  | stat mtime =>
    rcases w.step_stat_cases host mtime with hw | ⟨bs, hs, hf, ⟨hlt, hw⟩ | ⟨-, hw⟩⟩
    · rw [hw]
      exact h
    · obtain ⟨hpos, hreads⟩ := h.restart bs.length
      rw [hw]
      refine ⟨hpos, ?_, hreads⟩
      rintro n ⟨⟩
      exact hlt
    · obtain ⟨hpos, hreads⟩ := h.restart bs.length
      obtain ⟨hp, -, -, hg⟩ := (w.tailer.restart bs.length).caughtUp_frame mtime
      rw [hw]
      refine ⟨?_, ?_, ?_⟩
      · rw [hg, hp]
        exact hpos
      · intro n hn
        rw [hs] at hn
        cases hn
      · rw [hg]
        exact hreads.caughtUp mtime
  | read clocks =>
    cases hs : w.size with
    | none =>
      rw [LogWorld.step_read_none hs]
      exact h
    | some n =>
      obtain ⟨hun, hle, hunits, hkeeps⟩ := he n hs
      have hgot := hun.got_append h hs
      have hfeed := h.reads.feed host clocks n (w.chunk n)
      rw [← Utf8.decode_append (hunits n hs)] at hfeed
      rw [LogWorld.step_read hs (h.file hs hle)]
      refine ⟨?_, by simp, ?_⟩
      · change (w.tailer.got ++ w.chunk n).length = n
        rw [hgot, List.length_take, Nat.min_eq_left hle]
      · exact hfeed.congr (by simp [hunits n hs]) (by simp [hkeeps n hs])

theorem consistent_run {host : Host} {es : List LogEvent} {w : LogWorld} (h : Consistent w)
    (hes : LogWorld.Along host (SeesRewrites host) w es) : Consistent (LogWorld.run host es w) := by
  induction es generalizing w with
  | nil => exact h
  | cons e es ih => exact ih (h.step hes.1) hes.2

/-- A round that ends at the end of the file has read the file's present content. -/
theorem EndsRound.got_eq {host : Host} {w : LogWorld} {e : LogEvent} (hround : EndsRound host w e)
    (h : Consistent w) (he : SeesRewrites host w e)
    (hend : (w.step host e).tailer.pos = (w.step host e).content.length) :
    (w.step host e).tailer.got = (w.step host e).content := by
  have hpos := (h.step he).pos
  rw [hend] at hpos
  refine List.IsPrefix.eq_of_length ?_ hpos
  cases e with
  | append bs => exact hround.elim
  | truncate => exact hround.elim
  | stat mtime =>
    obtain ⟨hs, hf, hnone⟩ := hround
    rcases w.step_stat_cases host mtime with hw | ⟨bs, -, hfile, ⟨-, hw⟩ | ⟨hlt, hw⟩⟩
    · rw [hw] at hend ⊢
      exact he hs hend.symm
    · rw [hw] at hnone
      cases hnone
    · obtain ⟨hp, -, -, hg⟩ := (w.tailer.restart bs.length).caughtUp_frame mtime
      rw [hw] at hend ⊢
      change ((w.tailer.restart bs.length).caughtUp mtime).pos = w.content.length at hend
      change ((w.tailer.restart bs.length).caughtUp mtime).got <+: w.content
      rw [hp] at hend
      rw [hg]
      unfold Tailer.restart at hend ⊢
      split
      · exact List.nil_prefix
      · rename_i hge
        rw [if_neg hge] at hend
        exact he hs hend.symm
  | read clocks =>
    obtain ⟨n, hn⟩ := Option.ne_none_iff_exists'.mp hround
    obtain ⟨hun, hle, -⟩ := he n hn
    rw [LogWorld.step_read hn (h.file hn hle)]
    change w.tailer.got ++ w.chunk n <+: w.content
    rw [hun.got_append h hn]
    exact List.take_prefix n _

/-- **Rewritten logs.** When every step of a schedule sees the rewrites before it, a round
that ends at the end of the file has handed on the complete lines of the file's present
content, once each, since the last reset. -/
theorem rewritten_log_read_from_start (host : Host) (es : List LogEvent) (e : LogEvent)
    (hes : LogWorld.Along host (SeesRewrites host) {} (es ++ [e]))
    (hround : EndsRound host (LogWorld.run host es {}) e)
    (hend : (LogWorld.run host (es ++ [e]) {}).tailer.pos =
      (LogWorld.run host (es ++ [e]) {}).content.length) :
    (LogWorld.run host (es ++ [e]) {}).tailer.handed =
      lines '\n' (Utf8.decode (LogWorld.run host (es ++ [e]) {}).content) := by
  rw [LogWorld.along_append] at hes
  have hcons := consistent_run consistent_init hes.1
  rw [LogWorld.run_append] at hend ⊢
  have hgot := hround.got_eq hcons hes.2.1 hend
  have hexact := ((hcons.step hes.2.1).reads.exact_iff.mpr ⟨trivial, trivial⟩).1
  rw [hgot] at hexact
  exact hexact

/-- A log that is read and then rewritten. -/
def rewriteLog (old new : Bytes) : List LogEvent :=
  [.append old, .stat none, .read fun _ => ⟨0, 0⟩, .truncate, .append new]

/-- The log `ab`, rewritten to the shorter log `c`. -/
theorem rewritten_log_read_from_start_shorter :
    (LogWorld.run Host.root (rewriteLog [97, 98, 10] [99, 10] ++ [.stat none] ++
      [.read fun _ => ⟨0, 0⟩]) {}).tailer.handed =
        lines '\n' (Utf8.decode (LogWorld.run Host.root (rewriteLog [97, 98, 10] [99, 10] ++
          [.stat none] ++ [.read fun _ => ⟨0, 0⟩]) {}).content) :=
  rewritten_log_read_from_start Host.root (rewriteLog [97, 98, 10] [99, 10] ++ [.stat none])
    (.read fun _ => ⟨0, 0⟩) (by decide +kernel) (by decide +kernel) (by decide +kernel)

/-- The log `a`, rewritten to the log `b` of the same size. -/
theorem unseen_rewrite_keeps_old_lines :
    ¬ ∀ (host : Host) (es : List LogEvent) (e : LogEvent),
      EndsRound host (LogWorld.run host es {}) e →
      (LogWorld.run host (es ++ [e]) {}).tailer.pos =
        (LogWorld.run host (es ++ [e]) {}).content.length →
      (LogWorld.run host (es ++ [e]) {}).tailer.handed =
        lines '\n' (Utf8.decode (LogWorld.run host (es ++ [e]) {}).content) := by
  intro h
  have hstale := h Host.root (rewriteLog [97, 10] [98, 10]) (.stat none)
    ⟨by decide +kernel, by decide +kernel, by decide +kernel⟩ (by decide +kernel)
  exact absurd hstale (by decide +kernel)

end XfceLinux.Dashboard
