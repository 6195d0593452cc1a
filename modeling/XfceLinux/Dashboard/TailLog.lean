import XfceLinux.Lib.Lines
import XfceLinux.Lib.Utf8
import XfceLinux.Dashboard.Updates

/-!
# `tail_log`

The tailer of `tools/bst-dashboard.py` and the file it follows. A round of `tail_log` has
two moments at which it looks at the file: it takes the size (`LogEvent.stat`), and, when
there is something to read, it reads up to that size (`LogEvent.read`). The writer may append
and truncate before, between and after them; `start_build` truncates and then writes.

`handed` and `got` record, since the last `reset_state`, the lines passed to `parse_line`
and the bytes read.
-/

namespace XfceLinux.Dashboard

open Lib Lib.Text Lib.Lines

/-! ## The loop body -/

/-- The variables of `tail_log`, and the build state. -/
structure Tailer where
  pos : Nat := 0
  buf : Str := []
  state : State := {}
  handed : List Str := []
  got : Bytes := []

/-- `for line in lines[:-1]: parse_line(line)`, until an exception leaves it: the lines
passed and the state behind them. -/
def parseLines (host : Host) (clocks : Nat → Clock) : List Str → State → List Str × State
  | [], s => ([], s)
  | l :: ls, s =>
    match parseLine host (clocks 0) l s with
    | .ok s =>
      let (passed, s) := parseLines host (fun i => clocks (i + 1)) ls s
      (l :: passed, s)
    | .error s => ([l], s)

/-- `_done_catching_up`; `mtime` is the result of `getmtime`, or an exception. -/
def doneCatchingUp (mtime : Option ℚ) (s : State) : State :=
  { s with
    catchingUp := false
    buildEndTs :=
      if s.active = [] ∧ s.successCount > 0 ∧ s.buildEndTs = 0 then mtime.getD s.buildEndTs
      else s.buildEndTs }

namespace Tailer

/-- `if size < pos` -/
def restart (size : Nat) (t : Tailer) : Tailer :=
  if size < t.pos then { state := resetState t.state } else t

/-- `elif STATE.catching_up` -/
def caughtUp (mtime : Option ℚ) (t : Tailer) : Tailer :=
  if t.state.catchingUp then { t with state := t.state.update (doneCatchingUp mtime) } else t

theorem caughtUp_frame (mtime : Option ℚ) (t : Tailer) :
    (t.caughtUp mtime).pos = t.pos ∧ (t.caughtUp mtime).buf = t.buf ∧
      (t.caughtUp mtime).handed = t.handed ∧ (t.caughtUp mtime).got = t.got := by
  unfold caughtUp
  split <;> exact ⟨rfl, rfl, rfl, rfl⟩

/-- `f.seek(pos)` and `f.read(size - pos)` -/
def chunk (size : Nat) (content : Bytes) (t : Tailer) : Bytes :=
  (content.drop t.pos).take (size - t.pos)

/-- What follows the read in the `try` block. -/
def feed (host : Host) (clocks : Nat → Clock) (size : Nat) (chunk : Bytes) (t : Tailer) :
    Tailer :=
  let text := t.buf ++ Utf8.decode chunk
  let (passed, state) := parseLines host clocks (lines '\n' text) t.state
  { pos := size, buf := rest '\n' text, state
    handed := t.handed ++ passed, got := t.got ++ chunk }

end Tailer

/-! ## The tailer and the writer -/

structure LogWorld where
  /-- `LOG_FILE`, if it exists. -/
  file : Option Bytes := none
  tailer : Tailer := {}
  /-- The size that the round under way has found, when there is something to read. -/
  size : Option Nat := none

inductive LogEvent where
  | append (bs : Bytes)
  | truncate
  | stat (mtime : Option ℚ)
  | read (clocks : Nat → Clock)

namespace LogWorld

def content (w : LogWorld) : Bytes := w.file.getD []

/-- One step of the writer or of the tailer. The tailer takes the size only between two
rounds, and it reads only when it has found something to read. -/
def step (host : Host) (w : LogWorld) : LogEvent → LogWorld
  | .append bs => { w with file := some (w.content ++ bs) }
  | .truncate => { w with file := some [] }
  | .stat mtime =>
    match w.size, w.file with
    | none, some bs =>
      let t := w.tailer.restart bs.length
      if bs.length > t.pos then { w with tailer := t, size := some bs.length }
      else { w with tailer := t.caughtUp mtime }
    | _, _ => w
  | .read clocks =>
    match w.size, w.file with
    | some size, some bs =>
      { w with
        tailer := w.tailer.feed host clocks size (w.tailer.chunk size bs), size := none }
    | _, _ => { w with size := none }

def run (host : Host) (es : List LogEvent) (w : LogWorld) : LogWorld := es.foldl (step host) w

/-- Every step of the schedule satisfies `P`, in the state before it. -/
def Along (host : Host) (P : LogWorld → LogEvent → Prop) : LogWorld → List LogEvent → Prop
  | _, [] => True
  | w, e :: es => P w e ∧ Along host P (w.step host e) es

@[simp] theorem content_mk (bs : Bytes) (t : Tailer) (size : Option Nat) :
    content ⟨some bs, t, size⟩ = bs := rfl

instance decidableAlong (host : Host) (P : LogWorld → LogEvent → Prop)
    [∀ w e, Decidable (P w e)] :
    (w : LogWorld) → (es : List LogEvent) → Decidable (Along host P w es)
  | _, [] => inferInstanceAs (Decidable True)
  | w, e :: es =>
    have := decidableAlong host P (w.step host e) es
    inferInstanceAs (Decidable (P w e ∧ _))

theorem run_append (host : Host) (es fs : List LogEvent) (w : LogWorld) :
    run host (es ++ fs) w = run host fs (run host es w) :=
  List.foldl_append

theorem along_append {host : Host} {P : LogWorld → LogEvent → Prop} {w : LogWorld}
    {es fs : List LogEvent} :
    Along host P w (es ++ fs) ↔ Along host P w es ∧ Along host P (run host es w) fs := by
  induction es generalizing w with
  | nil => simp [Along, run]
  | cons e es ih => simp [Along, ih, and_assoc, run]

theorem along_iff {host : Host} {P : LogWorld → LogEvent → Prop} {w : LogWorld}
    {es : List LogEvent} :
    Along host P w es ↔ ∀ pre e post, es = pre ++ e :: post → P (run host pre w) e := by
  induction es generalizing w with
  | nil => simp [Along]
  | cons e es ih =>
    rw [Along, ih]
    constructor
    · rintro ⟨he, hes⟩ pre f post heq
      cases pre with
      | nil =>
        obtain ⟨rfl, -⟩ := List.cons.inj heq
        exact he
      | cons g pre =>
        obtain ⟨rfl, htail⟩ := List.cons.inj heq
        exact hes pre f post htail
    · intro h
      exact ⟨h [] e es rfl, fun pre f post heq => h (e :: pre) f post (heq ▸ rfl)⟩

end LogWorld

/-! ## Lines that are not handed on -/

/-- No line that makes `parse_line` raise stands before another one. -/
def NoLoss (host : Host) (ls : List Str) : Prop := ∀ l ∈ ls.dropLast, raises host l = false

instance (host : Host) (ls : List Str) : Decidable (NoLoss host ls) :=
  inferInstanceAs (Decidable (∀ l ∈ ls.dropLast, raises host l = false))

theorem NoLoss.infix {host : Host} {as bs cs : List Str} (h : NoLoss host (as ++ bs ++ cs)) :
    NoLoss host bs := by
  intro l hl
  obtain ⟨ds, d, rfl⟩ : ∃ ds d, bs = ds ++ [d] := by
    cases bs using List.reverseRecOn with
    | nil => cases hl
    | append_singleton ds d => exact ⟨ds, d, rfl⟩
  rw [List.dropLast_concat] at hl
  refine h l ?_
  rw [List.append_assoc, List.append_assoc, List.singleton_append, ← List.append_assoc,
    List.dropLast_append_of_ne_nil (by simp)]
  exact List.mem_append_left _ (List.mem_append_right _ hl)

theorem parseLines_of_noLoss {host : Host} {ls : List Str} (h : NoLoss host ls)
    (clocks : Nat → Clock) (s : State) : (parseLines host clocks ls s).1 = ls := by
  induction ls generalizing clocks s with
  | nil => rfl
  | cons l ls ih =>
    rw [parseLines]
    split
    · rename_i t ht
      have hls : NoLoss host ls := by
        intro m hm
        cases ls with
        | nil => cases hm
        | cons k ks => exact h m (List.mem_cons_of_mem _ hm)
      exact congrArg (l :: ·) (ih hls _ t)
    · rename_i t ht
      cases ls with
      | nil => rfl
      | cons k ks =>
        obtain ⟨u, hu⟩ := parseLine_of_not_raises (h l List.mem_cons_self) (clocks 0) s
        rw [hu] at ht
        cases ht

theorem length_parseLines_lt {host : Host} {ls : List Str} (h : ¬ NoLoss host ls)
    (clocks : Nat → Clock) (s : State) : (parseLines host clocks ls s).1.length < ls.length := by
  induction ls generalizing clocks s with
  | nil => exact absurd (fun l hl => by cases hl) h
  | cons l ls ih =>
    obtain ⟨k, ks, rfl⟩ : ∃ k ks, ls = k :: ks := by
      cases ls with
      | nil => exact absurd (fun m hm => by cases hm) h
      | cons k ks => exact ⟨k, ks, rfl⟩
    rw [parseLines]
    split
    · rename_i t ht
      have hks : ¬ NoLoss host (k :: ks) := by
        intro hks
        refine h fun m hm => ?_
        rcases List.mem_cons.mp hm with rfl | hm
        · by_contra hr
          obtain ⟨u, hu⟩ := parseLine_of_raises (by simpa using hr) (clocks 0) s
          rw [hu] at ht
          cases ht
        · exact hks m hm
      exact Nat.succ_lt_succ (ih hks (fun i => clocks (i + 1)) t)
    · simp

/-! ## What a tailer has read -/

/-- The tailer has turned its bytes into the text `T`. Where `units` holds, every chunk began
between two units of the bytes read; where `kept` holds, no line was lost to an
exception. Otherwise the text is too long, or lines are missing. -/
structure Reads (t : Tailer) (T : Str) (units kept : Prop) : Prop where
  buf : t.buf = rest '\n' T
  newlines : T.count '\n' = t.got.count 10
  text : (units ∧ T = Utf8.decode t.got) ∨
    (¬ units ∧ (Utf8.decode t.got).length < T.length)
  handed : (kept ∧ t.handed = lines '\n' T) ∨
    (¬ kept ∧ t.handed.length < T.count '\n')

theorem reads_init : Reads {} [] True True where
  buf := rest_nil.symm
  newlines := rfl
  text := .inl ⟨trivial, rfl⟩
  handed := .inl ⟨trivial, lines_nil.symm⟩

theorem Reads.congr {t : Tailer} {T : Str} {units units' kept kept' : Prop}
    (h : Reads t T units kept) (hu : units ↔ units') (hk : kept ↔ kept') :
    Reads t T units' kept' := by
  rw [← propext hu, ← propext hk]
  exact h

theorem Reads.caughtUp {t : Tailer} {T : Str} {units kept : Prop} (h : Reads t T units kept)
    (mtime : Option ℚ) : Reads (t.caughtUp mtime) T units kept := by
  obtain ⟨-, hbuf, hhanded, hgot⟩ := t.caughtUp_frame mtime
  obtain ⟨h₁, h₂, h₃, h₄⟩ := h
  exact ⟨hbuf ▸ h₁, hgot ▸ h₂, hgot ▸ h₃, hhanded ▸ h₄⟩

theorem Reads.feed {t : Tailer} {T : Str} {units kept : Prop} (h : Reads t T units kept)
    (host : Host) (clocks : Nat → Clock) (size : Nat) (chunk : Bytes) :
    Reads (t.feed host clocks size chunk) (T ++ Utf8.decode chunk)
      (units ∧ ¬ Utf8.Splits t.got chunk)
      (kept ∧ NoLoss host (lines '\n' (t.buf ++ Utf8.decode chunk))) := by
  have hlines : lines '\n' (T ++ Utf8.decode chunk) =
      lines '\n' T ++ lines '\n' (t.buf ++ Utf8.decode chunk) := by
    rw [lines_append, h.buf]
  have hcount := congrArg List.length hlines
  rw [List.length_append, length_lines, length_lines] at hcount
  refine ⟨?_, ?_, ?_, ?_⟩
  · simp only [Tailer.feed]
    rw [h.buf, ← rest_append]
  · simp only [Tailer.feed, List.count_append, h.newlines, Utf8.count_decode]
  · simp only [Tailer.feed]
    by_cases hs : Utf8.Splits t.got chunk
    · right
      have hlt := Utf8.length_decode_append_lt hs
      refine ⟨fun hu => hu.2 hs, ?_⟩
      rw [List.length_append]
      rcases h.text with ⟨-, hT⟩ | ⟨-, hT⟩
      · rw [hT]
        exact hlt
      · omega
    · rw [Utf8.decode_append hs]
      rcases h.text with ⟨hu, hT⟩ | ⟨hu, hT⟩
      · exact .inl ⟨⟨hu, hs⟩, by rw [hT]⟩
      · exact .inr ⟨fun h => hu h.1, by simpa using hT⟩
  · simp only [Tailer.feed]
    by_cases hl : NoLoss host (lines '\n' (t.buf ++ Utf8.decode chunk))
    · rw [parseLines_of_noLoss hl]
      rcases h.handed with ⟨hk, hT⟩ | ⟨hk, hT⟩
      · exact .inl ⟨⟨hk, hl⟩, by rw [hT, hlines]⟩
      · refine .inr ⟨fun h => hk h.1, ?_⟩
        rw [List.length_append]
        omega
    · right
      have hlt := length_parseLines_lt hl clocks t.state
      have hle : t.handed.length ≤ T.count '\n' := by
        rcases h.handed with ⟨-, hT⟩ | ⟨-, hT⟩
        · rw [hT, length_lines]
        · exact hT.le
      refine ⟨fun hk => hl hk.2, ?_⟩
      rw [List.length_append]
      omega

/-- The tailer has handed on the lines of a text and kept its rest, if and only if the text
is what the bytes decode to and no line was lost. -/
theorem Reads.exact_iff {t : Tailer} {T : Str} {units kept : Prop} (h : Reads t T units kept) :
    (t.handed = lines '\n' (Utf8.decode t.got) ∧ t.buf = rest '\n' (Utf8.decode t.got)) ↔
      units ∧ kept := by
  constructor
  · rintro ⟨hl, hr⟩
    have hkept : kept ∧ t.handed = lines '\n' T := by
      refine h.handed.resolve_right fun hlost => ?_
      have hlen := hlost.2
      rw [hl, length_lines, Utf8.count_decode, h.newlines] at hlen
      exact lt_irrefl _ hlen
    have hT : T = Utf8.decode t.got := lines_rest_inj (hkept.2.symm.trans hl) (h.buf.symm.trans hr)
    refine ⟨(h.text.resolve_right fun htorn => ?_).1, hkept.1⟩
    exact htorn.2.ne' (congrArg List.length hT)
  · rintro ⟨hu, hk⟩
    have hT : T = Utf8.decode t.got := (h.text.resolve_right fun htorn => htorn.1 hu).2
    rw [← hT]
    exact ⟨(h.handed.resolve_right fun hlost => hlost.1 hk).2, h.buf⟩

/-! ## Steps that lose nothing -/

namespace LogWorld

/-- The bytes that a read would get. -/
def chunk (w : LogWorld) (size : Nat) : Bytes := w.tailer.chunk size w.content

theorem step_stat_cases (host : Host) (w : LogWorld) (mtime : Option ℚ) :
    w.step host (.stat mtime) = w ∨
      ∃ bs, w.size = none ∧ w.file = some bs ∧
        (((w.tailer.restart bs.length).pos < bs.length ∧
            w.step host (.stat mtime) =
              { w with tailer := w.tailer.restart bs.length, size := some bs.length }) ∨
          (¬ (w.tailer.restart bs.length).pos < bs.length ∧
            w.step host (.stat mtime) =
              { w with tailer := (w.tailer.restart bs.length).caughtUp mtime })) := by
  simp only [step]
  split
  · rename_i bs hs hf
    refine .inr ⟨bs, hs, hf, ?_⟩
    split
    · exact .inl ⟨‹_›, rfl⟩
    · exact .inr ⟨‹_›, rfl⟩
  · exact .inl rfl

theorem step_read_none {w : LogWorld} (hs : w.size = none) (host : Host)
    (clocks : Nat → Clock) : w.step host (.read clocks) = w := by
  cases w
  cases hs
  rfl

theorem step_read {w : LogWorld} {size : Nat} (hs : w.size = some size) (hf : w.file ≠ none)
    (host : Host) (clocks : Nat → Clock) :
    w.step host (.read clocks) =
      { w with tailer := w.tailer.feed host clocks size (w.chunk size), size := none } := by
  obtain ⟨bs, hbs⟩ := Option.ne_none_iff_exists'.mp hf
  simp only [step, hs, hbs, chunk, content, Option.getD_some]

/-- A read begins between two units of the bytes read. -/
def WholeUnits (w : LogWorld) : LogEvent → Prop
  | .read _ => ∀ size ∈ w.size, ¬ Utf8.Splits w.tailer.got (w.chunk size)
  | _ => True

/-- A read completes no line that makes `parse_line` raise before another line. -/
def KeepsLines (host : Host) (w : LogWorld) : LogEvent → Prop
  | .read _ => ∀ size ∈ w.size,
    NoLoss host (lines '\n' (w.tailer.buf ++ Utf8.decode (w.chunk size)))
  | _ => True

instance (w : LogWorld) : (e : LogEvent) → Decidable (w.WholeUnits e)
  | .read _ => inferInstanceAs (Decidable (∀ size ∈ w.size, _))
  | .append _ | .truncate | .stat _ => inferInstanceAs (Decidable True)

instance (host : Host) (w : LogWorld) : (e : LogEvent) → Decidable (w.KeepsLines host e)
  | .read _ => inferInstanceAs (Decidable (∀ size ∈ w.size, _))
  | .append _ | .truncate | .stat _ => inferInstanceAs (Decidable True)

end LogWorld

end XfceLinux.Dashboard
