import XfceLinux.Fakecap.Readers
import XfceLinux.Lib.Cstring
import XfceLinux.Lib.Machine

/-!
# The two readers in their buffers

`manifest_load` keeps pointers into one buffer of the whole file, which it cuts into strings
by writing NULs over newlines and tabs; `fakecap-restore` does the same in the buffer of one
line. Both are modelled here with their buffers, and both are shown to extract the entries
of the text (`load_eq`, `restoreLoop_eq`).
-/

namespace XfceLinux.Fakecap

open Lib Lib.Text Lib.Cstring Lib.Machine

/-! ## Lines -/

/-- A line that makes no entry: empty, a comment, or without a tab. -/
def Skipped (line : Bytes) : Prop := line = [] ∨ line.head? = some hash ∨ tab ∉ line

instance (line : Bytes) : Decidable (Skipped line) := inferInstanceAs (Decidable (_ ∨ _))

/-- A plain reading of a line as an entry: the path before the first tab, the component up to
the second tab, and the rest as the interval. -/
inductive EntryLine : Bytes → Entry → Prop
  | weekly {path component : Bytes} (hpath : tab ∉ path) (hcomponent : tab ∉ component)
      (hcomment : path.head? ≠ some hash) :
      EntryLine (path ++ tab :: component) ⟨path, component, ascii "weekly"⟩
  | full {path component interval : Bytes} (hpath : tab ∉ path) (hcomponent : tab ∉ component)
      (hcomment : path.head? ≠ some hash) :
      EntryLine (path ++ tab :: (component ++ tab :: interval)) ⟨path, component, interval⟩

theorem strchr_eq_none {s : Bytes} {c : UInt8} (h : c ∉ s) : strchr s c = none := if_neg h

theorem exists_of_mem {s : Bytes} {c : UInt8} (h : c ∈ s) : ∃ a b, c ∉ a ∧ s = a ++ c :: b := by
  obtain ⟨a, b, hs, ha⟩ := List.eq_append_cons_of_mem h
  exact ⟨a, b, ha, hs⟩

theorem head?_append_tab {path : Bytes} (h : path.head? ≠ some hash) (rest : Bytes) :
    ¬ ((path ++ tab :: rest).head? = none ∨ (path ++ tab :: rest).head? = some hash) := by
  cases path with
  | nil => simp [tab, hash]
  | cons b path => simpa using h

theorem EntryLine.entryOf {line : Bytes} {e : Entry} (h : EntryLine line e) :
    entryOf line = some e := by
  cases h with
  | weekly hpath hcomponent hcomment =>
    rw [Fakecap.entryOf, if_neg (head?_append_tab hcomment _), strchr_append hpath]
    simp only [strchr_eq_none hcomponent]
  | full hpath hcomponent hcomment =>
    rw [Fakecap.entryOf, if_neg (head?_append_tab hcomment _), strchr_append hpath]
    simp only [strchr_append hcomponent]

theorem skipped_or_entryLine (line : Bytes) : Skipped line ∨ ∃ e, EntryLine line e := by
  by_cases hskip : Skipped line
  · exact .inl hskip
  · right
    unfold Skipped at hskip
    push Not at hskip
    obtain ⟨path, fields, hpath, rfl⟩ := exists_of_mem hskip.2.2
    have hcomment : path.head? ≠ some hash := by
      intro h
      apply hskip.2.1
      rw [List.head?_append, h]
      rfl
    by_cases htab : tab ∈ fields
    · obtain ⟨component, interval, hcomponent, rfl⟩ := exists_of_mem htab
      exact ⟨_, .full hpath hcomponent hcomment⟩
    · exact ⟨_, .weekly hpath htab hcomment⟩

theorem Skipped.entryOf {line : Bytes} (h : Skipped line) : entryOf line = none := by
  unfold Fakecap.entryOf
  split
  · rfl
  · rename_i hhead
    rw [not_or] at hhead
    rcases h with rfl | h | h
    · exact absurd rfl hhead.1
    · exact absurd h hhead.2
    · rw [strchr_eq_none h]

theorem entryOf_eq_some_iff {line : Bytes} {e : Entry} :
    entryOf line = some e ↔ EntryLine line e := by
  constructor
  · intro h
    rcases skipped_or_entryLine line with hskip | ⟨e', he'⟩
    · rw [hskip.entryOf] at h
      cases h
    · obtain rfl : e' = e := Option.some.inj (he'.entryOf.symm.trans h)
      exact he'
  · exact EntryLine.entryOf

theorem entryOf_eq_none_iff {line : Bytes} : entryOf line = none ↔ Skipped line := by
  constructor
  · intro h
    rcases skipped_or_entryLine line with hskip | ⟨e, he⟩
    · exact hskip
    · rw [he.entryOf] at h
      cases h
  · exact Skipped.entryOf

/-! ## `manifest_load` -/

/-- The pointers of a `ManifestEntry`; `none` points to the constant of the source. -/
structure Pointers where
  path : Nat
  component : Nat
  interval : Option Nat
deriving DecidableEq

def Pointers.read (buf : Bytes) (m : Pointers) : Entry where
  path := strAt buf m.path
  component := strAt buf m.component
  interval := m.interval.elim (ascii "weekly") (strAt buf)

/-- `manifest_buf`, `line` and the first `manifest_len` entries of `manifest`. -/
structure Loader where
  buf : Bytes
  line : Nat
  stored : List Pointers

/-- The entries as they read at this moment. -/
def Loader.entries (s : Loader) : List Entry := s.stored.map (Pointers.read s.buf)

/-- The entry of a line whose newline is a NUL already. -/
def tokenise (buf : Bytes) (line : Nat) : Bytes × Option Pointers :=
  if charAt buf line ≠ 0 ∧ charAt buf line ≠ hash then
    match strchrAt buf line tab with
    | none => (buf, none)
    | some tab1 =>
      let buf := buf.set tab1 0
      match strchrAt buf (tab1 + 1) tab with
      | none => (buf, some ⟨line, tab1 + 1, none⟩)
      | some tab2 => (buf.set tab2 0, some ⟨line, tab1 + 1, some (tab2 + 1)⟩)
  else (buf, none)

/-- `while (*line)` -/
def Loader.step (s : Loader) : Option Loader :=
  if charAt s.buf s.line = 0 then none
  else
    let nl := strchrAt s.buf s.line newline
    let cut := nl.elim s.buf (s.buf.set · 0)
    let done := tokenise cut s.line
    some {
      buf := done.1
      line := nl.elim (s.line + (strAt done.1 s.line).length) (· + 1)
      stored := s.stored ++ done.2.toList }

/-- The buffer with the file and its terminator, before the loop. -/
def Loader.start (file : Bytes) : Loader where
  buf := file ++ [0]
  line := 0
  stored := []

/-- `cap`, the number of entries `manifest` has room for. -/
def capacity (file : Bytes) : Nat := (strAt (Loader.start file).buf 0).count newline

/-! ### One line -/

section Tokenise

variable {line : Bytes}

theorem tokenise_skipped (h : Skipped line) (hzero : 0 ∉ line) (pre post : Bytes) :
    tokenise (pre ++ (line ++ 0 :: post)) pre.length = (pre ++ (line ++ 0 :: post), none) := by
  unfold tokenise
  rw [charAt_terminated]
  split
  · rename_i hchar
    have htab : tab ∉ line := by
      rcases h with rfl | h | h
      · exact absurd rfl hchar.1
      · rw [List.headD_eq_head?_getD, h] at hchar
        exact absurd rfl hchar.2
      · exact h
    rw [strchrAt_eq_none hzero htab]
  · rfl

theorem charAt_entryLine {path rest : Bytes} (hzero : 0 ∉ path) (hcomment : path.head? ≠ some hash)
    (pre post : Bytes) :
    charAt (pre ++ ((path ++ tab :: rest) ++ 0 :: post)) pre.length ≠ 0 ∧
      charAt (pre ++ ((path ++ tab :: rest) ++ 0 :: post)) pre.length ≠ hash := by
  rw [charAt_terminated]
  cases path with
  | nil => exact ⟨show tab ≠ 0 by decide, show tab ≠ hash by decide⟩
  | cons b path =>
    constructor
    · rintro rfl
      exact hzero List.mem_cons_self
    · rintro rfl
      exact hcomment rfl

theorem tokenise_weekly {path component : Bytes} (hpath : tab ∉ path)
    (hcomponent : tab ∉ component) (hcomment : path.head? ≠ some hash) (hzero : 0 ∉ path)
    (hzero' : 0 ∉ component) (pre post : Bytes) :
    tokenise (pre ++ ((path ++ tab :: component) ++ 0 :: post)) pre.length =
      (pre ++ ((path ++ 0 :: component) ++ 0 :: post),
        some ⟨pre.length, pre.length + path.length + 1, none⟩) := by
  have htab1 := strchrAt_eq_some pre post hzero (by decide) hzero' hpath
  have hbehind : strchrAt (pre ++ (path ++ 0 :: (component ++ 0 :: post)))
      (pre.length + path.length + 1) tab = none := by
    rw [behind, ← length_behind]
    exact strchrAt_eq_none hzero' hcomponent
  rw [tokenise, if_pos (charAt_entryLine hzero hcomment pre post), htab1]
  simp only [set_terminated, hbehind]
  simp

theorem tokenise_full {path component interval : Bytes} (hpath : tab ∉ path)
    (hcomponent : tab ∉ component) (hcomment : path.head? ≠ some hash) (hzero : 0 ∉ path)
    (hzero' : 0 ∉ component) (hzero'' : 0 ∉ interval) (pre post : Bytes) :
    tokenise (pre ++ ((path ++ tab :: (component ++ tab :: interval)) ++ 0 :: post)) pre.length =
      (pre ++ ((path ++ 0 :: (component ++ 0 :: interval)) ++ 0 :: post),
        some ⟨pre.length, pre.length + path.length + 1,
          some (pre.length + path.length + 1 + component.length + 1)⟩) := by
  have hfields : 0 ∉ component ++ tab :: interval := by
    rw [List.mem_append, List.mem_cons]
    rintro (h | h | h)
    · exact hzero' h
    · exact absurd h (by decide)
    · exact hzero'' h
  have htab1 := strchrAt_eq_some pre post hzero (by decide) hfields hpath
  have htab2 := strchrAt_eq_some (pre ++ path ++ [0]) post hzero' (by decide) hzero'' hcomponent
  have hset := set_terminated (pre ++ path ++ [0]) component interval post tab
  rw [length_behind, ← behind] at htab2 hset
  rw [tokenise, if_pos (charAt_entryLine hzero hcomment pre post), htab1]
  simp only [set_terminated, htab2, hset]
  simp

theorem read_weekly {path component : Bytes} (hzero : 0 ∉ path) (hzero' : 0 ∉ component)
    (pre post : Bytes) :
    Pointers.read (pre ++ ((path ++ 0 :: component) ++ 0 :: post))
      ⟨pre.length, pre.length + path.length + 1, none⟩ = ⟨path, component, ascii "weekly"⟩ := by
  rw [List.append_assoc path, List.cons_append, Pointers.read, strAt_terminated hzero,
    strAt_behind _ _ _ hzero']
  rfl

theorem read_full {path component interval : Bytes} (hzero : 0 ∉ path) (hzero' : 0 ∉ component)
    (hzero'' : 0 ∉ interval) (pre post : Bytes) :
    Pointers.read (pre ++ ((path ++ 0 :: (component ++ 0 :: interval)) ++ 0 :: post))
      ⟨pre.length, pre.length + path.length + 1,
        some (pre.length + path.length + 1 + component.length + 1)⟩ =
      ⟨path, component, interval⟩ := by
  have hinterval := strAt_behind (pre ++ path ++ [0]) component post hzero''
  rw [length_behind, ← behind] at hinterval
  rw [List.append_assoc path, List.cons_append, List.append_assoc component, List.cons_append,
    Pointers.read, strAt_terminated hzero, strAt_behind _ _ _ hzero', Option.elim_some, hinterval]

/-- A line is cut into the strings of its entry, whatever stands behind it. -/
theorem tokenise_spec (hzero : 0 ∉ line) (pre : Bytes) :
    ∃ cut m?, cut.length = line.length ∧ ∀ post,
      tokenise (pre ++ (line ++ 0 :: post)) pre.length = (pre ++ (cut ++ 0 :: post), m?) ∧
        m?.map (Pointers.read (pre ++ (cut ++ 0 :: post))) = entryOf line := by
  rcases skipped_or_entryLine line with hskip | ⟨e, he⟩
  · exact ⟨line, none, rfl, fun post => ⟨tokenise_skipped hskip hzero pre post,
      hskip.entryOf.symm⟩⟩
  · rw [he.entryOf]
    cases he with
    | @weekly path component hpath hcomponent hcomment =>
      rw [List.mem_append, List.mem_cons, not_or, not_or] at hzero
      refine ⟨path ++ 0 :: component, some ⟨pre.length, pre.length + path.length + 1, none⟩,
        by simp, fun post => ⟨?_, ?_⟩⟩
      · exact tokenise_weekly hpath hcomponent hcomment hzero.1 hzero.2.2 pre post
      · rw [Option.map_some, read_weekly hzero.1 hzero.2.2]
    | @full path component interval hpath hcomponent hcomment =>
      simp only [List.mem_append, List.mem_cons, not_or] at hzero
      refine ⟨path ++ 0 :: (component ++ 0 :: interval), some ⟨pre.length,
        pre.length + path.length + 1, some (pre.length + path.length + 1 + component.length + 1)⟩,
        by simp, fun post => ⟨?_, ?_⟩⟩
      · exact tokenise_full hpath hcomponent hcomment hzero.1 hzero.2.2.1 hzero.2.2.2.2 pre post
      · rw [Option.map_some, read_full hzero.1 hzero.2.2.1 hzero.2.2.2.2]

end Tokenise

/-! ### The whole buffer -/

theorem entries_line {line : Bytes} (h : newline ∉ line) :
    entries line = (entryOf line).toList := by
  rw [entries, List.splitOn_eq_singleton h, List.filterMap_cons]
  cases entryOf line <;> rfl

theorem entries_cons {line : Bytes} (h : newline ∉ line) (text : Bytes) :
    entries (line ++ newline :: text) = (entryOf line).toList ++ entries text := by
  rw [entries, List.splitOn_append_cons_self_of_not_mem h, List.filterMap_cons]
  cases entryOf line <;> rfl

/-- The loop over a line with its newline goes on behind it. -/
theorem step_line {line more : Bytes} (hline : newline ∉ line) (hzero : 0 ∉ line)
    (hmore : 0 ∉ more) (pre : Bytes) :
    ∃ (cut : Bytes) (m? : Option Pointers), ∀ post stored,
      Loader.step ⟨pre ++ ((line ++ newline :: more) ++ 0 :: post), pre.length, stored⟩ =
        some ⟨(pre ++ cut ++ [0]) ++ (more ++ 0 :: post), (pre ++ cut ++ [0]).length,
          stored ++ m?.toList⟩ ∧
      ∀ rest, m?.map (Pointers.read ((pre ++ cut ++ [0]) ++ rest)) = entryOf line := by
  obtain ⟨cut, m?, hlength, hspec⟩ := tokenise_spec hzero pre
  refine ⟨cut, m?, fun post stored => ⟨?_, fun rest => ?_⟩⟩
  · have hnl := strchrAt_eq_some pre post hzero (by decide) hmore hline
    have hchar : charAt (pre ++ ((line ++ newline :: more) ++ 0 :: post)) pre.length ≠ 0 := by
      rw [charAt_terminated]
      cases line with
      | nil => exact show newline ≠ 0 by decide
      | cons b line =>
        rintro rfl
        exact hzero List.mem_cons_self
    have htokenise := (hspec (more ++ 0 :: post)).1
    rw [Loader.step, if_neg hchar, hnl]
    simp only [Option.elim_some, set_terminated, htokenise]
    simp [hlength, Nat.add_assoc]
  · have hread := (hspec rest).2
    rw [← hread]
    simp

/-- The loop over what stands behind the last newline stops behind its path. -/
theorem step_last {line : Bytes} (hline : newline ∉ line) (hzero : 0 ∉ line) (hne : line ≠ [])
    (pre : Bytes) :
    ∃ (cut : Bytes) (m? : Option Pointers), ∀ post stored,
      Loader.step ⟨pre ++ (line ++ 0 :: post), pre.length, stored⟩ =
        some ⟨pre ++ (cut ++ 0 :: post),
          pre.length + (strAt (pre ++ (cut ++ 0 :: post)) pre.length).length,
          stored ++ m?.toList⟩ ∧
      m?.map (Pointers.read (pre ++ (cut ++ 0 :: post))) = entryOf line := by
  obtain ⟨cut, m?, -, hspec⟩ := tokenise_spec hzero pre
  refine ⟨cut, m?, fun post stored => ⟨?_, (hspec post).2⟩⟩
  have hchar : charAt (pre ++ (line ++ 0 :: post)) pre.length ≠ 0 := by
    rw [charAt_terminated]
    obtain ⟨b, line, rfl⟩ := List.exists_cons_of_ne_nil hne
    rintro rfl
    exact hzero List.mem_cons_self
  rw [Loader.step, if_neg hchar, strchrAt_eq_none hzero hline]
  simp only [Option.elim_none, (hspec _).1]

/-- From the lines behind `pre` on, the loop stores the entries of the lines, and leaves what
stands before them. -/
theorem exists_load {rest : Bytes} (hrest : newline ∉ rest) (hzero : 0 ∉ rest)
    {ls : List Bytes} (hls : ∀ l ∈ ls, newline ∉ l ∧ 0 ∉ l) (pre post : Bytes)
    (stored : List Pointers) :
    ∃ cut line ms,
      Steps Loader.step
        ⟨pre ++ ((Lines.unlines newline ls ++ rest) ++ 0 :: post), pre.length, stored⟩
        ⟨pre ++ (cut ++ 0 :: post), line, stored ++ ms⟩ ∧
      charAt (pre ++ (cut ++ 0 :: post)) line = 0 ∧
      ms.map (Pointers.read (pre ++ (cut ++ 0 :: post))) =
        entries (Lines.unlines newline ls ++ rest) := by
  induction ls generalizing pre stored with
  | nil =>
    rw [Lines.unlines, List.flatMap_nil, List.nil_append]
    by_cases hne : rest = []
    · subst hne
      refine ⟨[], pre.length, [], ?_, ?_, rfl⟩
      · rw [List.append_nil]
        exact .refl _
      · exact charAt_terminated
    · obtain ⟨cut, m?, hstep⟩ := step_last hrest hzero hne pre
      refine ⟨cut, _, m?.toList, .head (hstep post stored).1 (.refl _), charAt_end _ _, ?_⟩
      rw [entries_line hrest, ← (hstep post stored).2]
      cases m? <;> rfl
  | cons l ls ih =>
    have hl := hls l List.mem_cons_self
    have htail := fun m hm => hls m (List.mem_cons_of_mem _ hm)
    have hmore : 0 ∉ Lines.unlines newline ls ++ rest := by
      rw [List.mem_append, not_or]
      refine ⟨?_, hzero⟩
      rw [Lines.unlines, List.mem_flatMap]
      rintro ⟨m, hm, h⟩
      rcases List.mem_append.mp h with h | h
      · exact (htail m hm).2 h
      · exact absurd (List.mem_singleton.mp h) (by decide)
    have hcons : Lines.unlines newline (l :: ls) ++ rest =
        l ++ newline :: (Lines.unlines newline ls ++ rest) := by
      simp [Lines.unlines]
    obtain ⟨cut, m?, hstep⟩ := step_line hl.1 hl.2 hmore pre
    obtain ⟨cut', line, ms, hrun, hhalted, hread⟩ :=
      ih htail (pre ++ cut ++ [0]) (stored ++ m?.toList)
    have hbuf : pre ++ ((cut ++ 0 :: cut') ++ 0 :: post) =
        (pre ++ cut ++ [0]) ++ (cut' ++ 0 :: post) := by
      simp
    refine ⟨cut ++ 0 :: cut', line, m?.toList ++ ms, ?_, ?_, ?_⟩
    · rw [hcons, hbuf, ← List.append_assoc stored]
      exact .head (hstep post stored).1 hrun
    · rw [hbuf]
      exact hhalted
    · rw [hcons, entries_cons hl.1, List.map_append, hbuf, hread, ← Option.toList_map,
        (hstep post stored).2]

theorem zero_notMem_cString (buf : Bytes) : 0 ∉ cString buf := by
  intro h
  simpa using List.mem_takeWhile_imp h

theorem start_eq (file : Bytes) :
    ∃ post, Loader.start file = ⟨[] ++ (cString file ++ 0 :: post), ([] : Bytes).length, []⟩ := by
  obtain ⟨post, hpost⟩ := exists_terminated file []
  refine ⟨post, ?_⟩
  rw [Loader.start, hpost]
  rfl

theorem capacity_eq (file : Bytes) : capacity file = (cString file).count newline := by
  obtain ⟨post, hstart⟩ := start_eq file
  rw [capacity, hstart]
  exact congrArg (List.count newline) (strAt_terminated (zero_notMem_cString file))

/-- **Loading.** The loop of `manifest_load` ends on every file, and the pointers stored then
read as the entries of the text before the first NUL. -/
theorem load_eq (file : Bytes) :
    ∃ t, Steps Loader.step (Loader.start file) t ∧ Halted Loader.step t ∧
      t.entries = entries (cString file) := by
  obtain ⟨post, hstart⟩ := start_eq file
  have htext := Lines.unlines_lines_append_rest newline (cString file)
  have hzero := zero_notMem_cString file
  rw [← htext, List.mem_append, not_or] at hzero
  have hls : ∀ l ∈ Lines.lines newline (cString file), newline ∉ l ∧ 0 ∉ l := by
    intro l hl
    refine ⟨Lines.notMem_lines hl, fun h => hzero.1 ?_⟩
    exact List.mem_flatMap.mpr ⟨l, hl, List.mem_append_left _ h⟩
  obtain ⟨cut, line, ms, hrun, hhalted, hread⟩ :=
    exists_load (Lines.notMem_rest _) hzero.2 hls [] post []
  rw [htext, ← hstart] at hrun
  rw [htext] at hread
  have hstop : Halted Loader.step ⟨[] ++ (cut ++ 0 :: post), line, [] ++ ms⟩ := by
    rw [Halted, Loader.step, if_pos hhalted]
  exact ⟨_, hrun, hstop, hread⟩

/-- Whatever run of the loop has ended, it has stored the entries of the text. -/
theorem entries_of_halted {file : Bytes} {t : Loader}
    (h : Steps Loader.step (Loader.start file) t) (ht : Halted Loader.step t) :
    t.entries = entries (cString file) := by
  obtain ⟨u, hrun, hu, hentries⟩ := load_eq file
  rw [h.halted_unique hrun ht hu, hentries]

theorem stored_grows {s t : Loader} (h : Steps Loader.step s t) : s.stored <+: t.stored := by
  refine h.invariant (P := fun u => s.stored <+: u.stored) List.prefix_rfl fun a b ha hab => ?_
  rw [Loader.step] at hab
  split at hab
  · cases hab
  · obtain rfl := Option.some.inj hab
    exact ha.trans (List.prefix_append _ _)

/-- **The table.** `manifest_load` stores no more entries than it has allocated if and only if
some piece of the text between newlines, the one behind the last of them included, makes no
entry. -/
theorem stored_le_capacity_iff (file : Bytes) :
    (∀ t, Steps Loader.step (Loader.start file) t → t.stored.length ≤ capacity file) ↔
      ∃ piece ∈ (cString file).splitOn newline, Skipped piece := by
  obtain ⟨t, hrun, hhalted, hentries⟩ := load_eq file
  have hlength : t.stored.length = (entries (cString file)).length := by
    rw [← hentries, Loader.entries, List.length_map]
  have hfits : (entries (cString file)).length ≤ capacity file ↔
      ∃ piece ∈ (cString file).splitOn newline, Skipped piece := by
    rw [capacity_eq, ← Nat.lt_succ_iff, ← Nat.add_one, ← length_splitOn, entries,
      List.length_filterMap_lt_length_iff_exists]
    simp only [entryOf_eq_none_iff, exists_prop]
  rw [← hfits, ← hlength]
  constructor
  · intro h
    exact h t hrun
  · intro h u hu
    have hut : Steps Loader.step u t := by
      rcases hu.total hrun with h | h
      · exact h
      · rw [h.eq_of_halted hhalted]
        exact .refl t
    exact (stored_grows hut).length_le.trans h

/-- The last line has no newline, and the table has no room for its entry. -/
theorem unterminated_overflow :
    ¬ ∀ t, Steps Loader.step (Loader.start (ascii "/a\tx\n/b\ty")) t →
      t.stored.length ≤ capacity (ascii "/a\tx\n/b\ty") := by
  intro h
  exact absurd (h _ (steps_runFor 2 _)) (by decide)

/-! ## `fakecap-restore` -/

/-- The body of the loop of `main` up to the calls of `lsetxattr`. -/
def restoreLine (line : Bytes) : Bytes × Option Entry :=
  let len := (strAt line 0).length
  let line := if len ≠ 0 ∧ charAt line (len - 1) = newline then line.set (len - 1) 0 else line
  if charAt line 0 = 0 ∨ charAt line 0 = hash then (line, none)
  else
    match strchrAt line 0 tab with
    | none => (line, none)
    | some tab1 =>
      let line := line.set tab1 0
      let component := tab1 + 1
      match strchrAt line component tab with
      | none => (line, some ⟨strAt line 0, strAt line component, ascii "weekly"⟩)
      | some tab2 =>
        let line := line.set tab2 0
        (line, some ⟨strAt line 0, strAt line component, strAt line (tab2 + 1)⟩)

/-- `fgets` writes a piece of the file and its terminator over the buffer. -/
def fgetsInto (line piece : Bytes) : Bytes := piece ++ 0 :: line.drop (piece.length + 1)

/-- The loop of `main` over the pieces of the file, and the entries it extracts. -/
def restoreLoop (line : Bytes) : List Bytes → List Entry
  | [] => []
  | piece :: pieces =>
    let read := restoreLine (fgetsInto line piece)
    read.2.toList ++ restoreLoop read.1 pieces

/-- The buffer without the newline that `fgets` keeps. -/
def withoutNewline (line : Bytes) : Bytes :=
  let len := (strAt line 0).length
  if len ≠ 0 ∧ charAt line (len - 1) = newline then line.set (len - 1) 0 else line

/-- Behind the newline both readers do the same with a line. -/
theorem restoreLine_eq (line : Bytes) :
    restoreLine line =
      ((tokenise (withoutNewline line) 0).1, (tokenise (withoutNewline line) 0).2.map
        (Pointers.read (tokenise (withoutNewline line) 0).1)) := by
  unfold restoreLine tokenise
  simp only [← withoutNewline.eq_1]
  generalize withoutNewline line = line
  by_cases hskip : charAt line 0 = 0 ∨ charAt line 0 = hash
  · rw [if_pos hskip, if_neg (by rwa [← not_or, not_not])]
    rfl
  · rw [if_neg hskip, if_pos (not_or.mp hskip)]
    cases strchrAt line 0 tab with
    | none => rfl
    | some tab1 =>
      dsimp only
      cases strchrAt (line.set tab1 0) (tab1 + 1) tab with
      | none => rfl
      | some tab2 => rfl

theorem withoutNewline_terminated {s : Bytes} (hzero : 0 ∉ s) (post : Bytes) :
    ∃ post', withoutNewline (s ++ 0 :: post) = stripNewline s ++ 0 :: post' := by
  have hstr : strAt (s ++ 0 :: post) 0 = s := @strAt_terminated [] s post hzero
  unfold withoutNewline stripNewline
  rw [hstr]
  rcases List.eq_nil_or_concat' s with rfl | ⟨init, b, rfl⟩
  · exact ⟨post, rfl⟩
  · have hlen : (init ++ [b]).length - 1 = init.length := by simp
    have hne : (init ++ [b]).length ≠ 0 := by simp
    have hchar : charAt (init ++ [b] ++ 0 :: post) init.length = b := by
      rw [List.append_assoc]
      exact charAt_terminated (s := [b])
    dsimp only
    rw [hlen, hchar, List.getLast?_concat, List.dropLast_concat]
    by_cases hb : b = newline
    · refine ⟨0 :: post, ?_⟩
      rw [if_pos ⟨hne, hb⟩, if_pos (congrArg some hb)]
      simp
    · refine ⟨post, ?_⟩
      rw [if_neg fun h => hb h.2, if_neg fun h => hb (Option.some.inj h)]

theorem zero_notMem_stripNewline {s : Bytes} (h : 0 ∉ s) : 0 ∉ stripNewline s := by
  unfold stripNewline
  split
  · exact fun hmem => h (List.dropLast_subset s hmem)
  · exact h

theorem restoreLine_fgetsInto (line piece : Bytes) :
    (restoreLine (fgetsInto line piece)).2 = entryOf (stripNewline (cString piece)) := by
  have hzero := zero_notMem_cString piece
  obtain ⟨post, hpost⟩ := exists_terminated piece (line.drop (piece.length + 1))
  obtain ⟨post', hpost'⟩ := withoutNewline_terminated hzero post
  obtain ⟨cut, m?, -, hspec⟩ := tokenise_spec (zero_notMem_stripNewline hzero) []
  have hpiece : withoutNewline (fgetsInto line piece) =
      [] ++ (stripNewline (cString piece) ++ 0 :: post') := by
    rw [fgetsInto, hpost]
    exact hpost'
  have htokenise := (hspec post').1
  rw [List.length_nil] at htokenise
  rw [restoreLine_eq, hpiece, htokenise]
  exact (hspec post').2

/-- **The other reader.** Whatever stands in its buffer, `fakecap-restore` extracts from each
piece that `fgets` reads the entry of the piece without its newline. -/
theorem restoreLoop_eq (line : Bytes) (pieces : List Bytes) :
    restoreLoop line pieces =
      pieces.filterMap fun piece => entryOf (stripNewline (cString piece)) := by
  induction pieces generalizing line with
  | nil => rfl
  | cons piece pieces ih =>
    rw [restoreLoop, ih, restoreLine_fgetsInto, List.filterMap_cons]
    cases entryOf (stripNewline (cString piece)) <;> rfl

/-- A text that does not end within a line. -/
def NewlineTerminated (text : Bytes) : Prop := ∀ b ∈ text.getLast?, b = newline

theorem NewlineTerminated.unlines {text : Bytes} (h : NewlineTerminated text) :
    Lines.unlines newline (Lines.lines newline text) = text := by
  have htext := Lines.unlines_lines_append_rest newline text
  have hrest : Lines.rest newline text = [] := by
    rcases List.eq_nil_or_concat' (Lines.rest newline text) with hnil | ⟨init, b, hb⟩
    · exact hnil
    · have hlast : b ∈ text.getLast? := by
        rw [← htext, hb, ← List.append_assoc, List.getLast?_concat]
        rfl
      have hmem : newline ∉ Lines.rest newline text := Lines.notMem_rest text
      rw [hb, h b hlast] at hmem
      simp at hmem
  rw [hrest, List.append_nil] at htext
  exact htext

/-- **Two readers, one language.** On a text without NUL whose lines end with a newline and
have at most 8190 bytes, `manifest_load` ends, and it has stored, before the sort, what
`fakecap-restore` extracts. -/
theorem loader_eq_restoreLoop {text : Bytes} (hzero : 0 ∉ text) (hnewline : NewlineTerminated text)
    (hfit : ∀ l ∈ Lines.lines newline text, l.length ≤ 8190) (line : Bytes) :
    ∃ t, Steps Loader.step (Loader.start text) t ∧ Halted Loader.step t ∧
      t.entries = restoreLoop line (fgetsLines text) := by
  obtain ⟨t, hrun, hhalted, hentries⟩ := load_eq text
  refine ⟨t, hrun, hhalted, ?_⟩
  have htext := hnewline.unlines
  have hlines : ∀ l ∈ Lines.lines newline text, 0 ∉ l := by
    intro l hl h
    apply hzero
    rw [← htext]
    exact List.mem_flatMap.mpr ⟨l, hl, List.mem_append_left _ h⟩
  have hreaders := restoreEntries_unlines (fun l => Lines.notMem_lines) hlines hfit
  rw [htext] at hreaders
  rw [hentries, cString_of_notMem hzero, restoreLoop_eq]
  exact hreaders.symm

/-- A comment, an entry without an interval and one that begins with a tab. -/
theorem loader_eq_restoreLoop_three :
    ∃ t, Steps Loader.step (Loader.start (ascii "# x\n/a\tx\n\ty\tdaily\n")) t ∧
      Halted Loader.step t ∧
      t.entries = restoreLoop [] (fgetsLines (ascii "# x\n/a\tx\n\ty\tdaily\n")) :=
  loader_eq_restoreLoop (by decide) (by rintro b ⟨⟩; rfl)
    (fun _ hl => (Lines.length_le_of_mem_lines hl).trans (by decide)) []

end XfceLinux.Fakecap
