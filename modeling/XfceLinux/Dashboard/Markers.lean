import XfceLinux.Dashboard.Enrich
import XfceLinux.Lib.Findall
import XfceLinux.Lib.Lines
import XfceLinux.Lib.Matches

/-!
# Progress markers in the tail of a log

`_enrich_cmake` reads the last 8192 bytes of a log and takes the last marker in them. A marker
begins with the only `[` in it, and a `[` begins a unit of the decoding, so that the last
marker of the log is found wherever the tail begins before it.
-/

namespace XfceLinux.Dashboard

open Lib Lib.Text Lib.Regex

/-! ## Markers -/

/-- A match reads `[`, white space, digits, `/`, white space, digits and `]`. -/
theorem of_mem_run_cmakeProgressRe {u : Unicode} {first : Bool} {s : Str} {d : Cur}
    (h : d ∈ run (cmakeProgressRe u) ⟨first, s, []⟩) :
    ∃ w₁ w₂, (∀ c ∈ w₁ ++ w₂, isSpace c) ∧ (∀ c ∈ d.group 1 ++ d.group 2, u.isDecimal c) ∧
      d.group 1 ≠ [] ∧ d.group 2 ≠ [] ∧
      s = '[' :: ((w₁ ++ d.group 1 ++ '/' :: (w₂ ++ d.group 2 ++ [']'])) ++ d.rest) := by
  simp only [cmakeProgressRe, number, space, mem_run_cat_cons, mem_run_cat_nil, mem_run_group,
    mem_run_plus_set, mem_run_lit, mem_run_star_set] at h
  obtain ⟨c₁, ⟨r₁, h₁, rfl⟩, c₂, ⟨w₁, r₂, h₂, hw₁, rfl⟩, c₃,
    ⟨e₁, ⟨n₁, r₃, h₃, hne₁, hn₁, rfl⟩, rfl⟩, c₄, ⟨r₄, h₄, rfl⟩, c₅,
    ⟨w₂, r₅, h₅, hw₂, rfl⟩, c₆, ⟨e₂, ⟨n₂, r₆, h₆, hne₂, hn₂, rfl⟩, rfl⟩, c₇,
    ⟨r₇, h₇, rfl⟩, rfl⟩ := h
  simp only [advance_rest] at h₁ h₂ h₃ h₄ h₅ h₆ h₇
  subst h₇ h₆ h₅ h₄ h₃ h₂ h₁
  have hgroups : ∀ k n : Str, (k ++ n).take ((k ++ n).length - n.length) = k := by
    simp
  simp only [Cur.group, Cur.advance, hgroups, List.lookup]
  change ∃ v₁ v₂, (∀ c ∈ v₁ ++ v₂, isSpace c) ∧ (∀ c ∈ n₁ ++ n₂, u.isDecimal c) ∧ n₁ ≠ [] ∧
    n₂ ≠ [] ∧ _ = '[' :: ((v₁ ++ n₁ ++ '/' :: (v₂ ++ n₂ ++ [']'])) ++ r₇)
  refine ⟨w₁, w₂, List.forall_mem_append.mpr ⟨hw₁, hw₂⟩, List.forall_mem_append.mpr ⟨hn₁, hn₂⟩,
    hne₁, hne₂, ?_⟩
  simp

theorem isDecimal_ascii (u : Unicode) {c : Char} (h : c.toNat < 128) :
    u.isDecimal c = c.isDigit := by
  rw [Unicode.isDecimal, u.decimal_ascii c h]
  cases c.isDigit <;> rfl

theorem cmakeProgressRe_anchored (u : Unicode) : Anchored (cmakeProgressRe u) '[' where
  head := by
    intro first s d hd
    obtain ⟨w₁, w₂, hspace, hdecimal, -, -, hs⟩ := of_mem_run_cmakeProgressRe hd
    refine ⟨_, hs, ?_⟩
    have hw : '[' ∉ w₁ ++ w₂ := fun h => absurd (hspace _ h) (by decide)
    have hn : '[' ∉ d.group 1 ++ d.group 2 := by
      intro h
      have hdigit := hdecimal _ h
      rw [isDecimal_ascii u (by decide)] at hdigit
      exact absurd hdigit (by decide)
    rw [List.mem_append, not_or] at hw hn
    simp [hw, hn]
  start := by
    intro s
    cases s <;> rfl

/-! ## Numbers -/

/-- The number that decimal digits write. -/
def numeral (u : Unicode) (s : Str) : Nat :=
  s.foldl (fun n c => 10 * n + (u.decimal c).getD 0) 0

theorem parseInt_eq {u : Unicode} {s : Str} (h : ∀ c ∈ s, u.isDecimal c)
    (hlength : s.length ≤ intMaxStrDigits) : parseInt u s = some (numeral u s) := by
  have hfold : ∀ n, s.foldl (fun n c => do pure (10 * (← n) + (← u.decimal c))) (some n) =
      some (s.foldl (fun n c => 10 * n + (u.decimal c).getD 0) n) := by
    clear hlength
    induction s with
    | nil => exact fun n => rfl
    | cons c s ih =>
      intro n
      obtain ⟨d, hd⟩ := Option.isSome_iff_exists.mp (h c List.mem_cons_self)
      have ih := ih (fun e he => h e (List.mem_cons_of_mem c he)) (10 * n + d)
      simpa [hd] using ih
  rw [parseInt, if_pos hlength]
  exact hfold 0

/-! ## The last marker -/

/-- The last marker `m` of a log begins at its byte `k`. -/
structure LastMarkerAt (u : Unicode) (log : Bytes) (k : Nat) (m : Cur) : Prop where
  last : (findall (cmakeProgressRe u) (Utf8.decode log)).getLast? = some m
  begins : matchStart (cmakeProgressRe u) (Utf8.decode (log.drop k)) = some m

/-- Any part of the log that ends with the marker and what is behind it has the same last
marker. -/
theorem LastMarkerAt.getLast?_findall {u : Unicode} {log : Bytes} {k : Nat} {m : Cur}
    (h : LastMarkerAt u log k m) (before : Bytes) :
    (findall (cmakeProgressRe u) (Utf8.decode (before ++ log.drop k))).getLast? = some m := by
  obtain ⟨w₁, w₂, -, -, -, -, htext⟩ := of_mem_run_cmakeProgressRe (List.mem_of_head? h.begins)
  have hbegins := h.begins
  have hsplits : ∀ as, ¬ Utf8.Splits as (log.drop k) := by
    refine Utf8.not_splits_of_head ?_ (show '[' ≠ Utf8.replacement by decide)
    rw [htext]
    rfl
  have hlast := h.last
  rw [← List.take_append_drop k log, Utf8.decode_append (hsplits _)] at hlast
  rw [Utf8.decode_append (hsplits _)]
  rw [htext] at hlast hbegins ⊢
  rw [(cmakeProgressRe_anchored u).getLast?_findall_append hbegins] at hlast ⊢
  exact hlast

theorem LastMarkerAt.behind {u : Unicode} {log : Bytes} {k : Nat} {m : Cur}
    (h : LastMarkerAt u log k m) (before : Bytes) :
    LastMarkerAt u (before ++ log) (before.length + k) m := by
  have hdrop : (before ++ log).drop (before.length + k) = log.drop k := by
    rw [List.drop_append, List.drop_of_length_le (Nat.le_add_right _ _), List.nil_append,
      Nat.add_sub_cancel_left]
  constructor
  · have hlast := h.getLast?_findall (before ++ log.take k)
    rwa [List.append_assoc, List.take_append_drop] at hlast
  · rw [hdrop]
    exact h.begins

theorem enrichJob_of_lastMarker (host : Host) (files : Files) (job : Job) {log : Bytes}
    (hpath : job.log ≠ []) (hfile : files job.log = some log) {k : Nat} {m : Cur}
    (hm : LastMarkerAt host.unicode log k m) (htail : log.length - k ≤ 8192) :
    lastMarker host (Utf8.decode (lastN 8192 log)) = some m ∧
      enrichJob host files job = addProgress host (Utf8.decode (lastN 8192 log)) job := by
  constructor
  · have hdrop : (log.drop (log.length - 8192)).drop (k - (log.length - 8192)) = log.drop k := by
      have hsum : log.length - 8192 + (k - (log.length - 8192)) = k := by omega
      rw [List.drop_drop, hsum]
    rw [lastMarker, lastN,
      ← List.take_append_drop (k - (log.length - 8192)) (log.drop (log.length - 8192)), hdrop]
    exact hm.getLast?_findall _
  · rw [enrichJob, logTail, if_neg hpath, hfile]
    rfl

/-- **The tail of a log.** When the last marker of a log begins in its last 8192 bytes and
neither of its numbers has more than 4300 digits, `_enrich_cmake` sets the progress of the
job to the two numbers. -/
theorem enrichCmake_lastMarker (host : Host) (files : Files) (s : State) {key : Str} {job : Job}
    (hjob : Dict.get? s.active key = some job) {log : Bytes} (hpath : job.log ≠ [])
    (hfile : files job.log = some log) {k : Nat} {m : Cur}
    (hm : LastMarkerAt host.unicode log k m) (htail : log.length - k ≤ 8192)
    (hdone : (m.group 1).length ≤ 4300) (htotal : (m.group 2).length ≤ 4300) :
    ∃ job', Dict.get? (enrichCmake host files s).active key = some job' ∧
      job'.cmakeDone = some (numeral host.unicode (m.group 1)) ∧
      job'.cmakeTotal = some (numeral host.unicode (m.group 2)) := by
  obtain ⟨hlast, henrich⟩ := enrichJob_of_lastMarker host files job hpath hfile hm htail
  obtain ⟨w₁, w₂, -, hdecimal, -, -, -⟩ := of_mem_run_cmakeProgressRe (List.mem_of_head? hm.begins)
  have hparse₁ := parseInt_eq (fun c hc => hdecimal c (List.mem_append_left _ hc)) hdone
  have hparse₂ := parseInt_eq (fun c hc => hdecimal c (List.mem_append_right _ hc)) htotal
  refine ⟨enrichJob host files job, ?_, ?_, ?_⟩
  · rw [enrichCmake, Dict.get?_mapValues, hjob]
    rfl
  · rw [henrich, addProgress, hlast]
    simp only [hparse₁, hparse₂]
  · rw [henrich, addProgress, hlast]
    simp only [hparse₁, hparse₂]

/-- A state with one job, whose log is `log`. -/
def oneJob (log : Bytes) : State × Files :=
  ({ active := [([], { element := [], hash := [], start := 0, log := ['l'] })] },
    fun _ => some log)

/-- A log of 9018 bytes with two markers, of which the tail begins behind the first. -/
def twoMarkers : Bytes :=
  ascii "[1/9]\n" ++ List.replicate 9000 0x78 ++ ascii "\n[ 42/100]\nx"

theorem enrichCmake_lastMarker_two :
    ∃ job', Dict.get? (enrichCmake Host.root (oneJob twoMarkers).2 (oneJob twoMarkers).1).active
        [] = some job' ∧ job'.cmakeDone = some 42 ∧ job'.cmakeTotal = some 100 := by
  have hmarker : LastMarkerAt Unicode.ascii (ascii "\n[ 42/100]\nx") 1
      ⟨false, ['\n', 'x'], [(2, ['1', '0', '0']), (1, ['4', '2'])]⟩ :=
    ⟨by decide +kernel, by decide +kernel⟩
  have hfirst : (ascii "[1/9]\n").length = 6 := rfl
  have hlast : (ascii "\n[ 42/100]\nx").length = 12 := rfl
  have hlength : twoMarkers.length = 9018 := by
    rw [twoMarkers, List.length_append, List.length_append, List.length_replicate, hfirst, hlast]
  have hm := hmarker.behind (ascii "[1/9]\n" ++ List.replicate 9000 0x78)
  rw [List.length_append, List.length_replicate, hfirst] at hm
  exact enrichCmake_lastMarker Host.root (oneJob twoMarkers).2 (oneJob twoMarkers).1 rfl (by decide)
    rfl hm (by omega) (by decide) (by decide)

/-- A marker with white space nowhere is matched. -/
theorem matchStart_cmakeProgressRe_isSome {u : Unicode} {n₁ n₂ : Str} (hne₁ : n₁ ≠ [])
    (hne₂ : n₂ ≠ []) (hn₁ : ∀ c ∈ n₁, u.isDecimal c) (hn₂ : ∀ c ∈ n₂, u.isDecimal c) :
    (matchStart (cmakeProgressRe u) ('[' :: (n₁ ++ '/' :: (n₂ ++ [']'])))).isSome := by
  rw [matchStart_isSome]
  simp only [cmakeProgressRe, number, space, mem_run_cat_cons, mem_run_cat_nil, mem_run_group,
    mem_run_plus_set, mem_run_lit, mem_run_star_set]
  exact ⟨_, _, ⟨_, rfl, rfl⟩, _, ⟨[], _, rfl, List.forall_mem_nil _, rfl⟩, _,
    ⟨_, ⟨n₁, _, rfl, hne₁, hn₁, rfl⟩, rfl⟩, _, ⟨_, rfl, rfl⟩, _,
    ⟨[], _, rfl, List.forall_mem_nil _, rfl⟩, _, ⟨_, ⟨n₂, _, rfl, hne₂, hn₂, rfl⟩, rfl⟩, _,
    ⟨_, rfl, rfl⟩, rfl⟩

/-- A marker whose first number has `n` digits. -/
def longMarker (n : Nat) : Bytes := 0x5B :: (List.replicate n 0x31 ++ [0x2F, 0x31, 0x5D])

theorem decode_longMarker (n : Nat) :
    Utf8.decode (longMarker n) = '[' :: (List.replicate n '1' ++ '/' :: (['1'] ++ [']'])) := by
  rw [Utf8.decode_ascii]
  · simp only [longMarker, List.map_cons, List.map_append, List.map_replicate]
    rfl
  · intro b hb
    simp only [longMarker, List.mem_cons, List.mem_append, List.mem_replicate] at hb
    rcases hb with rfl | ⟨-, rfl⟩ | rfl | rfl | rfl | hb
    all_goals first | decide | cases hb

theorem exists_longMarker {n : Nat} (hn : n ≠ 0) :
    ∃ m, LastMarkerAt Unicode.ascii (longMarker n) 0 m ∧ m.group 1 = List.replicate n '1' := by
  have hdigits : ∀ c ∈ List.replicate n '1', Unicode.ascii.isDecimal c := by
    intro c hc
    rw [List.eq_of_mem_replicate hc]
    decide
  have hone : ∀ c ∈ ['1'], Unicode.ascii.isDecimal c :=
    List.forall_mem_singleton.mpr (by decide)
  obtain ⟨m, hm⟩ := Option.isSome_iff_exists.mp
    (matchStart_cmakeProgressRe_isSome (by simpa using hn) (by simp) hdigits hone)
  have hanchored := cmakeProgressRe_anchored Unicode.ascii
  obtain ⟨w₁, w₂, hspace, hdecimal, -, -, htext⟩ :=
    of_mem_run_cmakeProgressRe (List.mem_of_head? hm)
  have htail := (List.cons.inj htext).2
  have hbracket : '[' ∉ List.replicate n '1' ++ '/' :: (['1'] ++ [']']) := by
    simp [List.mem_replicate]
  have hrest : findall (cmakeProgressRe Unicode.ascii) m.rest = [] := by
    refine hanchored.findall_eq_nil fun h => hbracket ?_
    rw [htail]
    exact List.mem_append_right _ h
  refine ⟨m, ⟨?_, ?_⟩, ?_⟩
  · rw [decode_longMarker, hanchored.findall_of_some hm, hrest]
    rfl
  · rw [List.drop_zero, decode_longMarker]
    exact hm
  · have hslash : '/' ∉ w₁ ++ m.group 1 := by
      intro h
      rcases List.mem_append.mp h with h | h
      · exact absurd (hspace _ (List.mem_append_left _ h)) (by decide)
      · exact absurd (hdecimal _ (List.mem_append_left _ h)) (by decide)
    rw [List.append_assoc, List.cons_append] at htail
    have hdone : List.replicate n '1' = w₁ ++ m.group 1 :=
      (Lines.append_cons_inj (by simp [List.mem_replicate]) hslash htail).1
    have hnil : w₁ = [] := by
      refine List.eq_nil_iff_forall_not_mem.mpr fun c hc => ?_
      have hone : c = '1' := by
        refine List.eq_of_mem_replicate (n := n) ?_
        rw [hdone]
        exact List.mem_append_left _ hc
      have hc := hspace c (List.mem_append_left _ hc)
      rw [hone] at hc
      exact absurd hc (by decide)
    rw [hdone, hnil, List.nil_append]

/-- `int` refuses a number of 4301 digits, and the progress is not set. -/
theorem long_number_refused :
    ¬ ∀ (host : Host) (files : Files) (s : State) (key : Str) (job : Job),
      Dict.get? s.active key = some job → job.log ≠ [] → ∀ log, files job.log = some log →
      ∀ k m, LastMarkerAt host.unicode log k m → log.length - k ≤ 8192 →
      ∃ job', Dict.get? (enrichCmake host files s).active key = some job' ∧
        job'.cmakeDone = some (numeral host.unicode (m.group 1)) ∧
        job'.cmakeTotal = some (numeral host.unicode (m.group 2)) := by
  intro h
  obtain ⟨n, hn⟩ : ∃ n, n = 4301 := ⟨_, rfl⟩
  obtain ⟨m, hm, hgroup⟩ := exists_longMarker (show n ≠ 0 by omega)
  have hlength : (longMarker n).length = n + 4 := by
    simp [longMarker]
  have htail : (longMarker n).length - 0 ≤ 8192 := by omega
  have hpath : ['l'] ≠ [] := List.cons_ne_nil _ _
  obtain ⟨job', hget, hdone, -⟩ := h Host.root (oneJob (longMarker n)).2 (oneJob (longMarker n)).1
    [] _ rfl hpath _ rfl 0 m hm htail
  have hparse : parseInt Host.root.unicode (m.group 1) = none := by
    rw [parseInt, hgroup, List.length_replicate, if_neg]
    rw [intMaxStrDigits]
    omega
  obtain ⟨hlast, henrich⟩ := enrichJob_of_lastMarker Host.root (oneJob (longMarker n)).2
    { element := [], hash := [], start := 0, log := ['l'] } hpath rfl hm htail
  have hsame : enrichJob Host.root (oneJob (longMarker n)).2
      { element := [], hash := [], start := 0, log := ['l'] } =
        { element := [], hash := [], start := 0, log := ['l'] } := by
    rw [henrich, addProgress, hlast]
    simp only [hparse]
  rw [enrichCmake, Dict.get?_mapValues] at hget
  have hjob := Option.some.inj hget
  rw [hsame] at hjob
  rw [← hjob] at hdone
  cases hdone

end XfceLinux.Dashboard
