import XfceLinux.Filemap.Manifest
import XfceLinux.Lib.Lines
import XfceLinux.Lib.Sequences
import XfceLinux.Lib.Words

/-!
# Reading an artifact listing

`list_all_contents` reads the output of `bst artifact list-contents --long` line by line.
A line that starts with a tab is taken for an entry of the element named last, with its
fields separated by white space, any other line for the name of an element. What the
reader finds is what the single lines say (`Listing.read`). A listing is read back when every
line is legible: the path of a file is one word without escape sequences, and what is printed
of a directory or a symbolic link says nothing (`listing_read_back_iff`).
-/

namespace XfceLinux.Filemap

open Lib Lib.Text Lib.Regex

/-! ## The reader -/

/-- `\x1b\[[0-9;]*[A-Za-z]` -/
def ansiEscape : Re :=
  cat [lit "\x1b[", .star (.set fun c => range '0' '9' c || c == ';'),
    .set fun c => range 'A' 'Z' c || range 'a' 'z' c]

def stripAnsi (s : Str) : Str := sub ansiEscape [] s

structure Reading where
  result : List (Str × List Str)
  current : Option Str

/-- `result[current].append(path)` for a `defaultdict(list)` -/
def appendPath (result : List (Str × List Str)) (current path : Str) :
    List (Str × List Str) :=
  Dict.set result current ((Dict.get? result current).getD [] ++ [path])

/-- One turn of the loop of `list_all_contents`. -/
def readLine (st : Reading) (rawLine : Str) : Reading :=
  let line := rstrip isSpace rawLine
  if line = [] then st
  else if line.head? ≠ some '\t' then
    { st with current := some (rstrip (· == ':') (strip isSpace line)) }
  else
    match st.current with
    | none => st
    | some current =>
      match words line with
      | _ :: ftype :: _ :: path :: _ =>
        if ftype = "dir".toList then st
        else { st with result := appendPath st.result current ('/' :: path) }
      | _ => st

/-- What `list_all_contents` returns for the output of `bst`. -/
def listAllContents (out : Str) : List (Str × List Str) :=
  (((splitlines out).map stripAnsi).foldl readLine ⟨[], none⟩).result

/-! ## What is listed -/

/-- A name as `list_elements` passes it on: stripped, on one line, ending in `.bst`. -/
structure ElementName where
  text : Str
  ends : ".bst".toList <:+ text
  stripped : ∀ c ∈ text.head?, isSpace c = false
  oneLine : ∀ c ∈ text, isLineBreak c = false
  noEscape : '\x1b' ∉ text

inductive Kind where
  | reg
  | exe
  | link
  | dir
deriving DecidableEq, Repr

def Kind.text : Kind → Str
  | .reg => "reg".toList
  | .exe => "exe".toList
  | .link => "link".toList
  | .dir => "dir".toList

structure Entry where
  /-- the permission bits, as `-rwxr-xr-x` -/
  mode : Str
  kind : Kind
  size : Nat
  /-- the blanks that align the size -/
  pad : Nat
  path : Str
  /-- the target of a symbolic link -/
  target : Str
  mode_ne_nil : mode ≠ []
  mode_word : ∀ c ∈ mode, isSpace c = false ∧ c ≠ '\x1b'
  path_oneLine : '\n' ∉ path
  target_oneLine : '\n' ∉ target

/-- What stands behind the size. -/
def Entry.shown (e : Entry) : Str :=
  if e.kind = .link then e.path ++ " -> ".toList ++ e.target else e.path

/-- The line of an entry. -/
def Entry.line (e : Entry) : Str :=
  '\t' :: (e.mode ++ ' ' :: ' ' :: (e.kind.text ++ ' ' :: ' ' ::
    (List.replicate e.pad ' ' ++ (Nat.toDigits 10 e.size ++ ' ' :: ' ' :: e.shown))))

/-- The artifacts of a run of `bst artifact list-contents --long`. -/
structure Listing where
  items : List (ElementName × List Entry)
  keys_nodup : (items.map (·.1.text)).Nodup

def Listing.lines (m : Listing) : List Str :=
  m.items.flatMap fun item => (item.1.text ++ [':']) :: item.2.map Entry.line

/-- What `bst artifact list-contents --long` prints. -/
def Listing.render (m : Listing) : Str := Lines.unlines '\n' m.lines

/-- The path to claim for an entry. -/
def Entry.file (e : Entry) : Option Str :=
  if e.kind = .reg ∨ e.kind = .exe then some ('/' :: e.path) else none

/-- The paths to claim for the element `key`. -/
def Listing.files (m : Listing) (key : Str) : List Str :=
  (m.items.filter fun item => item.1.text = key).flatMap fun item => item.2.filterMap Entry.file

/-- `list_all_contents` returns the regular files and executables of each element that has
one, and nothing else. -/
def ReadsBack (m : Listing) : Prop :=
  ∀ key, Dict.get? (listAllContents m.render) key =
    if m.files key = [] then none else some (m.files key)

/-! ## What a line says -/

inductive Heard where
  | nothing
  | header (element : Str)
  | file (path : Str)
deriving DecidableEq

/-- How the loop takes a line. -/
def heard (rawLine : Str) : Heard :=
  let line := rstrip isSpace rawLine
  if line = [] then .nothing
  else if line.head? ≠ some '\t' then .header (rstrip (· == ':') (strip isSpace line))
  else
    match words line with
    | _ :: ftype :: _ :: path :: _ =>
      if ftype = "dir".toList then .nothing else .file ('/' :: path)
    | _ => .nothing

def Reading.hear (st : Reading) : Heard → Reading
  | .nothing => st
  | .header element => { st with current := some element }
  | .file path =>
    match st.current with
    | none => st
    | some current => { st with result := appendPath st.result current path }

/-- The paths said while the element named last is `key`. -/
def under (key : Str) : Option Str → List Heard → List Str
  | _, [] => []
  | current, .nothing :: ss => under key current ss
  | _, .header element :: ss => under key (some element) ss
  | current, .file path :: ss =>
    if current = some key then path :: under key current ss else under key current ss

theorem readLine_eq (st : Reading) (rawLine : Str) :
    readLine st rawLine = st.hear (heard rawLine) := by
  unfold readLine heard
  dsimp only
  split
  · rfl
  split
  · rfl
  cases hcurrent : st.current with
  | none =>
    dsimp only
    split
    · split <;> simp [Reading.hear, hcurrent]
    · rfl
  | some current =>
    dsimp only
    split
    · split <;> simp [Reading.hear, hcurrent]
    · rfl

/-! ## What is stored -/

theorem get?_appendPath (result : List (Str × List Str)) (current path key : Str) :
    Dict.get? (appendPath result current path) key =
      if current = key then some ((Dict.get? result key).getD [] ++ [path])
      else Dict.get? result key := by
  rw [appendPath, Dict.get?_set]
  split
  · rename_i h
    rw [h]
  · rfl

/-- A key without a path is not stored. -/
def Stored (result : List (Str × List Str)) (key : Str) (paths : List Str) : Prop :=
  Dict.get? result key = if paths = [] then none else some paths

theorem Stored.append {result : List (Str × List Str)} {key : Str} {paths : List Str}
    (h : Stored result key paths) (path : Str) :
    Stored (appendPath result key path) key (paths ++ [path]) := by
  have hgetD : (Dict.get? result key).getD [] = paths := by
    rw [h]
    split <;> simp_all
  rw [Stored, get?_appendPath, if_pos rfl, hgetD, if_neg (by simp)]

theorem Stored.hear {st : Reading} {key : Str} {paths : List Str}
    (h : Stored st.result key paths) (ss : List Heard) :
    Stored (ss.foldl Reading.hear st).result key (paths ++ under key st.current ss) := by
  induction ss generalizing st paths with
  | nil => simpa [under] using h
  | cons s ss ih =>
    rw [List.foldl_cons]
    cases s with
    | nothing => exact ih h
    | header element =>
      have hnext : Stored { st with current := some element }.result key paths := h
      exact ih hnext
    | file path =>
      cases hcurrent : st.current with
      | none =>
        have := ih h
        simpa [Reading.hear, under, hcurrent] using this
      | some current =>
        simp only [Reading.hear, under, hcurrent, Option.some.injEq]
        split
        · rename_i heq
          subst heq
          have hnext : Stored { st with result := appendPath st.result current path }.result
            current (paths ++ [path]) := h.append path
          have := ih hnext
          simpa [hcurrent] using this
        · rename_i hne
          have hkept : Stored { st with result := appendPath st.result current path }.result
              key paths := by
            rw [Stored, get?_appendPath, if_neg hne]
            exact h
          have := ih hkept
          simpa [hcurrent] using this

/-! ## What the lines of a listing say -/

/-- What the pieces of the line of an entry say. -/
def Entry.heard (e : Entry) : List Heard :=
  (e.line.splitOnP isLineBreak).map fun piece => Filemap.heard (stripAnsi piece)

def Listing.heard (m : Listing) : List Heard :=
  m.items.flatMap fun item => .header item.1.text :: item.2.flatMap Entry.heard

/-- The files that the lines of the listing put under `key`. -/
def Listing.read (m : Listing) (key : Str) : List Str := under key none m.heard

theorem stripAnsi_eq_self {s : Str} (h : '\x1b' ∉ s) : stripAnsi s = s := by
  apply Regex.sub_eq_self
  intro x hx first t
  have hne : x ≠ '\x1b' := fun he => h (he ▸ hx)
  simp [run, ansiEscape, cat, lit, hne]

theorem readLine_stripAnsi_nil (st : Reading) : readLine st (stripAnsi []) = st := rfl

/-- Empty lines are skipped, so the text may be split at every line break. -/
theorem foldl_splitlines (st : Reading) (out : Str) :
    ((splitlines out).map stripAnsi).foldl readLine st =
      (out.splitOnP isLineBreak).foldl (fun st piece => readLine st (stripAnsi piece)) st := by
  have hSkip : ∀ ls : List Str,
      (ls.filter (!·.isEmpty)).foldl (fun st piece => readLine st (stripAnsi piece)) st =
        ls.foldl (fun st piece => readLine st (stripAnsi piece)) st := by
    intro ls
    rw [List.foldl_filter]
    congr 1
    funext st piece
    cases piece with
    | nil => rfl
    | cons => rfl
  rw [List.foldl_map, ← hSkip (splitlines out), ← hSkip (out.splitOnP isLineBreak),
    (sameLines_splitlines out).filter_eq]

theorem splitOnP_unlines (ls : List Str) :
    (Lines.unlines '\n' ls).splitOnP isLineBreak =
      ls.flatMap (fun l => l.splitOnP isLineBreak) ++ [[]] := by
  induction ls with
  | nil => rfl
  | cons l ls ih =>
    have hn : isLineBreak '\n' = true := by decide
    rw [Lines.unlines, List.flatMap_cons, List.append_assoc, List.singleton_append,
      List.splitOnP_append_cons _ _ hn, List.flatMap_cons, List.append_assoc, ← ih]
    rfl

/-- The line of an element says its name. -/
theorem heard_header (e : ElementName) : heard (e.text ++ [':']) = .header e.text := by
  obtain ⟨stem, hstem⟩ := e.ends
  have hlast : rstrip isSpace (e.text ++ [':']) = e.text ++ [':'] :=
    rstrip_append_singleton (by decide) _
  have hne : e.text ≠ [] := by
    rw [← hstem]
    simp
  obtain ⟨c, text, htext⟩ := List.exists_cons_of_ne_nil hne
  have hc : isSpace c = false := e.stripped c (by simp [htext])
  have hlstrip : lstrip isSpace (e.text ++ [':']) = e.text ++ [':'] :=
    lstrip_eq_self (by simp [htext, hc])
  have htab : (e.text ++ [':']).head? ≠ some '\t' := by
    rw [htext, List.cons_append, List.head?_cons]
    rintro ⟨⟩
    exact absurd hc (by decide)
  have hcolon : rstrip (· == ':') (e.text ++ [':']) = e.text := by
    rw [rstrip_append (by simp), ← hstem]
    have hdot : ".bst".toList = ".bs".toList ++ ['t'] := by decide
    rw [hdot, ← List.append_assoc]
    exact rstrip_append_singleton (by decide) _
  rw [heard, hlast, if_neg (by simp), if_pos htab, strip, hlstrip, hlast, hcolon]

theorem splitOnP_header (e : ElementName) :
    (e.text ++ [':']).splitOnP isLineBreak = [e.text ++ [':']] := by
  apply List.splitOnP_eq_singleton
  intro c hc
  rcases List.mem_append.mp hc with hc | hc
  · exact e.oneLine c hc
  · rw [List.mem_singleton.mp hc]
    decide

theorem map_heard_lines (m : Listing) :
    (m.lines.flatMap fun l => l.splitOnP isLineBreak).map
      (fun piece => heard (stripAnsi piece)) = m.heard := by
  have hEscape : ∀ e : ElementName, '\x1b' ∉ e.text ++ [':'] := by
    intro e he
    rcases List.mem_append.mp he with he | he
    · exact e.noEscape he
    · simp at he
  unfold Listing.lines Listing.heard
  induction m.items with
  | nil => rfl
  | cons item items ih =>
    rw [List.flatMap_cons, List.flatMap_append, List.map_append, ih, List.flatMap_cons,
      List.flatMap_cons, splitOnP_header, List.map_append, List.map_singleton,
      stripAnsi_eq_self (hEscape item.1), heard_header, List.flatMap_map, List.map_flatMap]
    rfl

/-- **What the reader finds.** Under each key the files that the lines put there. -/
theorem get?_listAllContents (m : Listing) (key : Str) :
    Dict.get? (listAllContents m.render) key =
      if m.read key = [] then none else some (m.read key) := by
  have hFold : listAllContents m.render = (m.heard.foldl Reading.hear ⟨[], none⟩).result := by
    rw [listAllContents, foldl_splitlines, Listing.render, splitOnP_unlines,
      List.foldl_append, List.foldl_cons, List.foldl_nil, readLine_stripAnsi_nil,
      ← map_heard_lines, List.foldl_map]
    simp only [readLine_eq]
  rw [hFold]
  have hstart : Stored (⟨[], none⟩ : Reading).result key [] := rfl
  exact hstart.hear m.heard

/-! ## Single entries -/

/-- The path that is claimed, if any. -/
def Heard.path : Heard → Option Str
  | .file path => some path
  | _ => none

/-- The pieces of the line, without escape sequences. -/
def Entry.pieces (e : Entry) : List Str := (e.line.splitOnP isLineBreak).map stripAnsi

/-- The paths that the pieces claim. -/
def Entry.claims (e : Entry) : List Str := e.heard.filterMap Heard.path

/-- No piece is taken for the name of an element. -/
def Entry.Headless (e : Entry) : Prop := ∀ element, .header element ∉ e.heard

theorem Entry.heard_eq (e : Entry) : e.heard = e.pieces.map Filemap.heard := by
  rw [Entry.heard, Entry.pieces, List.map_map]
  rfl

theorem under_of_headless (key : Str) (current : Option Str) {said : List Heard}
    (h : ∀ element, .header element ∉ said) (ss : List Heard) :
    under key current (said ++ ss) =
      (if current = some key then said.filterMap Heard.path else []) ++ under key current ss := by
  induction said with
  | nil => simp
  | cons s said ih =>
    have hrest := ih fun element hmem => h element (List.mem_cons_of_mem s hmem)
    rw [List.cons_append]
    cases s with
    | nothing => simp only [under, hrest, List.filterMap_cons, Heard.path]
    | header element => exact absurd List.mem_cons_self (h element)
    | file path =>
      simp only [under, hrest, List.filterMap_cons, Heard.path]
      split <;> simp

theorem read_of_headless {m : Listing} (h : ∀ item ∈ m.items, ∀ e ∈ item.2, e.Headless)
    (key : Str) :
    m.read key = (m.items.filter fun item => item.1.text = key).flatMap
      fun item => item.2.flatMap Entry.claims := by
  have hItems : ∀ (items : List (ElementName × List Entry)) (current : Option Str),
      (∀ item ∈ items, item ∈ m.items) →
      under key current (items.flatMap fun item =>
        .header item.1.text :: item.2.flatMap Entry.heard) =
      (items.filter fun item => item.1.text = key).flatMap
        fun item => item.2.flatMap Entry.claims := by
    intro items
    induction items with
    | nil => intros; rfl
    | cons item items ih =>
      intro current hmem
      have hheadless : ∀ element, .header element ∉ item.2.flatMap Entry.heard := by
        intro element hheader
        obtain ⟨e, he, hheader⟩ := List.mem_flatMap.mp hheader
        exact h item (hmem item List.mem_cons_self) e he element hheader
      have hclaims : (item.2.flatMap Entry.heard).filterMap Heard.path =
          item.2.flatMap Entry.claims := List.filterMap_flatMap
      rw [List.flatMap_cons, List.cons_append, under, under_of_headless _ _ hheadless, hclaims,
        ih _ fun i hi => hmem i (List.mem_cons_of_mem item hi)]
      by_cases hkey : item.1.text = key
      · rw [List.filter_cons_of_pos (by simpa using hkey), List.flatMap_cons, hkey, if_pos rfl]
      · rw [List.filter_cons_of_neg (by simpa using hkey), if_neg (by simpa using hkey)]
        rfl
  exact hItems m.items none fun _ hi => hi

/-! ## The fields of a line -/

/-- What stands in front of the path. -/
def Entry.front (e : Entry) : Str :=
  '\t' :: (e.mode ++ ' ' :: ' ' :: (e.kind.text ++ ' ' :: ' ' ::
    (List.replicate e.pad ' ' ++ (Nat.toDigits 10 e.size ++ ' ' :: ' ' :: []))))

theorem Entry.line_eq (e : Entry) : e.line = e.front ++ e.shown := by
  simp [Entry.line, Entry.front]

/-- The path that the line of an entry is taken to claim. -/
def Entry.word (e : Entry) : Option Str :=
  if e.kind = .dir then none else (words e.shown).head?.map ('/' :: ·)

def hearWord : Option Str → Heard
  | none => .nothing
  | some path => .file path

theorem Kind.text_word (k : Kind) :
    k.text ≠ [] ∧ ∀ c ∈ k.text, isSpace c = false ∧ c ≠ '\x1b' := by
  have hAll : k.text.all fun c => !isSpace c && c != '\x1b' := by cases k <;> decide
  refine ⟨by cases k <;> decide, ?_⟩
  simpa using hAll

theorem digits_word (n : Nat) : Nat.toDigits 10 n ≠ [] ∧
    ∀ c ∈ Nat.toDigits 10 n, isSpace c = false ∧ c ≠ '\x1b' := by
  refine ⟨Nat.toDigits_ne_nil, ?_⟩
  intro c hc
  have hdigit := Nat.isDigit_of_mem_toDigits (by omega) (by omega) hc
  simp only [Char.isDigit, Bool.and_eq_true, decide_eq_true_eq, ge_iff_le,
    UInt32.le_iff_toNat_le] at hdigit
  have hval : c.val.toNat = c.toNat := rfl
  simp only [hval] at hdigit
  constructor
  · simp only [isSpace, Bool.or_eq_false_iff, Bool.and_eq_false_iff, decide_eq_false_iff_not,
      beq_eq_false_iff_ne]
    simp at hdigit
    omega
  · rintro rfl
    simp at hdigit

theorem words_front_append (e : Entry) (s : Str) :
    words (e.front ++ s) = e.mode :: e.kind.text :: Nat.toDigits 10 e.size :: words s := by
  have hblank : isSpace ' ' = true := by decide
  have hmode := words_of_forall (fun c hc => (e.mode_word c hc).1) e.mode_ne_nil
  have hkind := words_of_forall (fun c hc => (e.kind.text_word.2 c hc).1) e.kind.text_word.1
  have hsize := words_of_forall (fun c hc => ((digits_word e.size).2 c hc).1)
    (digits_word e.size).1
  have hpad : ∀ c ∈ List.replicate e.pad ' ', isSpace c = true := by
    intro c hc
    rw [List.eq_of_mem_replicate hc, hblank]
  have hnext : ∀ s : Str, words (' ' :: s) = words s := fun s => words_append_cons hblank [] s
  have htab : ∀ s : Str, words ('\t' :: s) = words s :=
    fun s => words_append_cons (by decide) [] s
  have hsplit : e.front ++ s = '\t' :: (e.mode ++ ' ' :: ' ' :: (e.kind.text ++ ' ' :: ' ' ::
      (List.replicate e.pad ' ' ++ (Nat.toDigits 10 e.size ++ ' ' :: ' ' :: s)))) := by
    simp [Entry.front]
  rw [hsplit, htab, words_append_cons hblank, hnext, hmode, words_append_cons hblank,
    hnext, hkind, words_space_append hpad, words_append_cons hblank, hnext, hsize]
  rfl

theorem mem_front {e : Entry} {c : Char} (h : c ∈ e.front) :
    c = '\t' ∨ c = ' ' ∨ isSpace c = false ∧ c ≠ '\x1b' := by
  simp only [Entry.front, List.mem_cons, List.mem_append, List.not_mem_nil, or_false] at h
  rcases h with h | h | h | h | h | h | h | h | h | h | h
  · exact .inl h
  · exact .inr (.inr (e.mode_word c h))
  · exact .inr (.inl h)
  · exact .inr (.inl h)
  · exact .inr (.inr (e.kind.text_word.2 c h))
  · exact .inr (.inl h)
  · exact .inr (.inl h)
  · exact .inr (.inl (List.eq_of_mem_replicate h))
  · exact .inr (.inr ((digits_word e.size).2 c h))
  · exact .inr (.inl h)
  · exact .inr (.inl h)

/-- The front of a line has neither a line break nor an escape character. -/
theorem plain_front {e : Entry} {c : Char} (h : c ∈ e.front) :
    isLineBreak c = false ∧ c ≠ '\x1b' := by
  rcases mem_front h with rfl | rfl | ⟨hspace, hescape⟩
  · decide
  · decide
  · refine ⟨Bool.eq_false_iff.mpr fun hbreak => ?_, hescape⟩
    rw [isSpace_of_isLineBreak hbreak] at hspace
    cases hspace

theorem mem_shown {e : Entry} {c : Char} (h : c ∈ e.shown) :
    c ∈ e.path ++ e.target ∨ c ∈ " -> ".toList := by
  unfold Entry.shown at h
  split at h
  · simp only [List.mem_append] at h ⊢
    tauto
  · exact .inl (List.mem_append_left _ h)

theorem plain_line {e : Entry}
    (h : ∀ c ∈ e.path ++ e.target, isLineBreak c = false ∧ c ≠ '\x1b') {c : Char}
    (hc : c ∈ e.line) : isLineBreak c = false ∧ c ≠ '\x1b' := by
  rw [e.line_eq] at hc
  rcases List.mem_append.mp hc with hfront | hshown
  · exact plain_front hfront
  · rcases mem_shown hshown with hplain | harrow
    · exact h c hplain
    · have hArrow : " -> ".toList.all fun d => !isLineBreak d && d != '\x1b' := by decide
      have := List.all_eq_true.mp hArrow c harrow
      simpa using this

/-! ## What a piece says -/

/-- `rstrip` keeps the first character of a text that is not blank. -/
theorem head?_rstrip {s : Str} {c : Char} (hc : c ∈ s) (hspace : isSpace c = false) :
    (rstrip isSpace s).head? = s.head? := by
  obtain ⟨w, hw, hs⟩ := exists_rstrip_append isSpace s
  cases hr : rstrip isSpace s with
  | nil =>
    rw [hr, List.nil_append] at hs
    rw [hw c (hs ▸ hc)] at hspace
    cases hspace
  | cons d r =>
    rw [hs, hr]
    rfl

theorem rstrip_blank {s : Str} (h : words s = []) : rstrip isSpace s = [] := by
  have hblank : ∀ c ∈ s, isSpace c = true := by
    intro c hc
    by_contra hspace
    exact words_ne_nil hc (by simpa using hspace) h
  have hnil := rstrip_append hblank []
  rwa [List.nil_append] at hnil

/-- What the loop takes a piece for. -/
inductive Takes (piece : Str) : Heard → Prop
  | blank (hblank : words piece = []) : Takes piece .nothing
  | header (hne : words piece ≠ []) (htab : piece.head? ≠ some '\t') (element : Str) :
      Takes piece (.header element)
  | skipped (htab : piece.head? = some '\t')
      (hskip : (words piece).length < 4 ∨ (words piece)[1]? = some "dir".toList) :
      Takes piece .nothing
  | file {mode ftype size path : Str} {more : List Str} (htab : piece.head? = some '\t')
      (hwords : words piece = mode :: ftype :: size :: path :: more)
      (hdir : ftype ≠ "dir".toList) : Takes piece (.file ('/' :: path))

theorem takes (piece : Str) : Takes piece (heard piece) := by
  by_cases hblank : words piece = []
  · rw [heard, if_pos (rstrip_blank hblank)]
    exact .blank hblank
  have hline : rstrip isSpace piece ≠ [] := by
    intro hnil
    have hwords := words_rstrip piece
    rw [hnil] at hwords
    exact hblank hwords.symm
  have hhead : (rstrip isSpace piece).head? = piece.head? := by
    obtain ⟨c, hc, hspace⟩ : ∃ c ∈ piece, isSpace c = false := by
      by_contra hall
      push Not at hall
      refine hline ?_
      have hnil := rstrip_append (fun c hc => by simpa using hall c hc) []
      rwa [List.nil_append] at hnil
    exact head?_rstrip hc hspace
  rw [heard, if_neg hline, hhead, words_rstrip]
  split
  · exact .header hblank ‹_› _
  rename_i htab
  rw [not_not] at htab
  split
  · rename_i mode ftype size path more hwords
    split
    · rename_i hdir
      exact .skipped htab (.inr (by rw [hwords, hdir]; rfl))
    · exact .file htab hwords ‹_›
  · rename_i hshort
    refine .skipped htab (.inl ?_)
    match hwords : words piece with
    | [] | [_] | [_, _] | [_, _, _] => simp
    | mode :: ftype :: size :: path :: more => exact absurd hwords (hshort _ _ _ _ _)

theorem of_heard_header {piece element : Str} (h : heard piece = .header element) :
    words piece ≠ [] ∧ piece.head? ≠ some '\t' := by
  have htakes := takes piece
  rw [h] at htakes
  cases htakes with
  | header hne htab => exact ⟨hne, htab⟩

theorem of_heard_file {piece path : Str} (h : heard piece = .file path) :
    ∃ mode ftype size w more, words piece = mode :: ftype :: size :: w :: more ∧
      ftype ≠ "dir".toList ∧ path = '/' :: w := by
  have htakes := takes piece
  rw [h] at htakes
  cases htakes with
  | file htab hwords hdir => exact ⟨_, _, _, _, _, hwords, hdir, rfl⟩

/-- A piece says nothing when it is blank, or when it begins with a tab and has fewer than four
words or the type `dir`. -/
def Silent (piece : Str) : Prop :=
  words piece = [] ∨ piece.head? = some '\t' ∧
    ((words piece).length < 4 ∨ (words piece)[1]? = some "dir".toList)

theorem heard_eq_nothing_iff {piece : Str} : heard piece = .nothing ↔ Silent piece := by
  constructor
  · intro h
    have htakes := takes piece
    rw [h] at htakes
    cases htakes with
    | blank hblank => exact .inl hblank
    | skipped htab hskip => exact .inr ⟨htab, hskip⟩
  · intro h
    cases hheard : heard piece with
    | nothing => rfl
    | header element =>
      obtain ⟨hne, htab⟩ := of_heard_header hheard
      exact absurd (h.resolve_left hne).1 htab
    | file path =>
      obtain ⟨mode, ftype, size, w, more, hwords, hdir, -⟩ := of_heard_file hheard
      rcases h with h | ⟨-, h | h⟩
      · simp [hwords] at h
      · simp only [hwords, List.length_cons] at h
        omega
      · rw [hwords] at h
        exact absurd (Option.some.inj h) hdir

/-- What the line of an entry says, with the text `s` behind the size. -/
theorem heard_front_append (e : Entry) (s : Str) :
    heard (e.front ++ s) =
      hearWord (if e.kind = .dir then none else (words s).head?.map ('/' :: ·)) := by
  have hwords := words_front_append e s
  have hdir : e.kind.text = "dir".toList ↔ e.kind = .dir := by
    cases e.kind <;> decide
  have hsilent : ∀ hskip : (words (e.front ++ s)).length < 4 ∨
      (words (e.front ++ s))[1]? = some "dir".toList, heard (e.front ++ s) = .nothing :=
    fun hskip => heard_eq_nothing_iff.mpr (.inr ⟨rfl, hskip⟩)
  by_cases hkind : e.kind = .dir
  · rw [if_pos hkind]
    exact hsilent (.inr (by rw [hwords, hdir.mpr hkind]; rfl))
  rw [if_neg hkind]
  cases hs : words s with
  | nil => exact hsilent (.inl (by simp [hwords, hs]))
  | cons w ws =>
    cases hheard : heard (e.front ++ s) with
    | nothing =>
      rcases heard_eq_nothing_iff.mp hheard with h | ⟨-, h | h⟩
      · simp [hwords] at h
      · simp only [hwords, hs, List.length_cons] at h
        omega
      · rw [hwords] at h
        exact absurd (hdir.mp (Option.some.inj h)) hkind
    | header element => exact absurd rfl (of_heard_header hheard).2
    | file path =>
      obtain ⟨mode, ftype, size, path, more, hfound, -, rfl⟩ := of_heard_file hheard
      rw [hwords, hs] at hfound
      cases hfound
      rfl

/-! ## Files -/

theorem reads_ansiEscape : Reads ansiEscape '\x1b' Escape := reads_escape

theorem stripAnsi_append {w : Str} (h : '\x1b' ∉ w) (s : Str) :
    stripAnsi (w ++ s) = w ++ stripAnsi s := by
  induction w with
  | nil => rfl
  | cons c w ih =>
    have hc : c ≠ '\x1b' := fun he => h (he ▸ List.mem_cons_self)
    rw [List.cons_append, stripAnsi, reads_ansiEscape.sub_cons_of_ne hc]
    exact congrArg (c :: ·) (ih fun hmem => h (List.mem_cons_of_mem c hmem))

/-- Removing sequences adds no character. -/
theorem mem_of_mem_stripAnsi {s : Str} {c : Char} (h : c ∈ stripAnsi s) : c ∈ s := by
  induction hn : s.length using Nat.strong_induction_on generalizing s with
  | _ n ih =>
    cases s with
    | nil => exact h
    | cons d s =>
      rw [List.length_cons] at hn
      by_cases hno : ∀ w, Escape w → ¬ w <+: d :: s
      · rw [stripAnsi, reads_ansiEscape.sub_cons hno] at h
        rcases List.mem_cons.mp h with rfl | h
        · exact List.mem_cons_self
        · exact List.mem_cons_of_mem d (ih s.length (by omega) h rfl)
      · push Not at hno
        obtain ⟨w, hw, rest, hrest⟩ := hno
        obtain ⟨t, rfl, -⟩ := reads_ansiEscape.starts w hw
        have hlength := congrArg List.length hrest
        rw [List.length_append, List.length_cons, List.length_cons] at hlength
        rw [← hrest, stripAnsi, reads_ansiEscape.sub_append_left hw, List.nil_append] at h
        rw [← hrest]
        exact List.mem_append_right _ (ih rest.length (by omega) h rfl)

/-- A regular file or an executable. -/
def Entry.IsFile (e : Entry) : Prop := e.kind = .reg ∨ e.kind = .exe

instance (e : Entry) : Decidable e.IsFile := inferInstanceAs (Decidable (_ ∨ _))

/-- The path is one word. -/
def Entry.OneWord (e : Entry) : Prop := e.path ≠ [] ∧ ∀ c ∈ e.path, isSpace c = false

theorem Entry.IsFile.shown {e : Entry} (h : e.IsFile) : e.shown = e.path := by
  refine if_neg fun hlink => ?_
  rcases h with h | h <;> simp [hlink] at h

theorem Entry.IsFile.file {e : Entry} (h : e.IsFile) : e.file = some ('/' :: e.path) := if_pos h

theorem Entry.file_of_not {e : Entry} (h : ¬ e.IsFile) : e.file = none := if_neg h

/-- The line of a file whose path is one word claims that path without its escape sequences. -/
theorem heard_of_oneWord {e : Entry} (hfile : e.IsFile) (hword : e.OneWord) :
    e.heard = [hearWord
      (if stripAnsi e.path = [] then none else some ('/' :: stripAnsi e.path))] := by
  have hplain : ∀ c ∈ e.line, isLineBreak c = false := by
    intro c hc
    rw [e.line_eq, hfile.shown] at hc
    rcases List.mem_append.mp hc with hc | hc
    · exact (plain_front hc).1
    · refine Bool.eq_false_iff.mpr fun hbreak => ?_
      have hspace := hword.2 c hc
      rw [isSpace_of_isLineBreak hbreak] at hspace
      cases hspace
  have hescape : '\x1b' ∉ e.front := fun hc => (plain_front hc).2 rfl
  have hdir : e.kind ≠ .dir := by
    rintro hdir
    rcases hfile with h | h <;> simp [hdir] at h
  rw [Entry.heard, List.splitOnP_eq_singleton hplain, List.map_singleton, e.line_eq, hfile.shown,
    stripAnsi_append hescape, heard_front_append, if_neg hdir]
  split
  · rename_i hnil
    rw [hnil]
    rfl
  · rename_i hne
    rw [words_of_forall (fun c hc => hword.2 c (mem_of_mem_stripAnsi hc)) hne]
    rfl

/-! ## Legible lines -/

/-- The line of an entry is taken for what it lists: the path of a file is one word without
escape sequences, and no piece of any other line says anything. -/
def Entry.Legible (e : Entry) : Prop :=
  (e.IsFile → e.OneWord ∧ stripAnsi e.path = e.path) ∧
    (¬ e.IsFile → ∀ piece ∈ e.pieces, Silent piece)

def Listing.Legible (m : Listing) : Prop := ∀ item ∈ m.items, ∀ e ∈ item.2, e.Legible

/-- The path of a file is more than escape sequences, and the pieces of any other line are
blank or begin with a tab. -/
def Entry.Anchored (e : Entry) : Prop :=
  (e.IsFile → e.path ≠ [] → stripAnsi e.path ≠ []) ∧
    (¬ e.IsFile → ∀ piece ∈ e.pieces, words piece ≠ [] → piece.head? = some '\t')

def Listing.Anchored (m : Listing) : Prop := ∀ item ∈ m.items, ∀ e ∈ item.2, e.Anchored

/-- What a line claims that says nothing but what its words are. -/
theorem Entry.headless_of_words {e : Entry} {said : List (Option Str)}
    (h : e.heard = said.map hearWord) : e.Headless ∧ e.claims = said.filterMap id := by
  constructor
  · intro element hmem
    rw [h] at hmem
    obtain ⟨word, -, hword⟩ := List.mem_map.mp hmem
    cases word <;> cases hword
  · rw [Entry.claims, h, List.filterMap_map]
    refine List.filterMap_congr fun word _ => ?_
    cases word <;> rfl

theorem Entry.heard_of_silent {e : Entry} (h : ∀ piece ∈ e.pieces, Silent piece) :
    e.heard = (e.pieces.map fun _ => none).map hearWord := by
  rw [e.heard_eq, List.map_map]
  exact List.map_congr_left fun piece hpiece => heard_eq_nothing_iff.mpr (h piece hpiece)

theorem Entry.Legible.claims {e : Entry} (h : e.Legible) :
    e.Headless ∧ e.claims = e.file.toList := by
  by_cases hfile : e.IsFile
  · obtain ⟨hword, hstrip⟩ := h.1 hfile
    have hheard := heard_of_oneWord hfile hword
    rw [hstrip, if_neg hword.1] at hheard
    have hsaid := @Entry.headless_of_words e [some ('/' :: e.path)] hheard
    rw [hfile.file]
    exact hsaid
  · have hsaid := Entry.headless_of_words (Entry.heard_of_silent (h.2 hfile))
    rw [Entry.file_of_not hfile]
    refine ⟨hsaid.1, hsaid.2.trans ?_⟩
    simp

/-! ## Reading back -/

theorem readsBack_iff (m : Listing) : ReadsBack m ↔ ∀ key, m.read key = m.files key := by
  apply forall_congr'
  intro key
  rw [get?_listAllContents]
  constructor
  · intro h
    split at h <;> split at h <;> simp_all
  · intro h
    rw [h]

/-- Legible lines put under each name the files listed for it. -/
theorem Listing.Legible.readsBack {m : Listing} (h : m.Legible) : ReadsBack m := by
  rw [readsBack_iff]
  intro key
  rw [read_of_headless fun item hitem e he => (h item hitem e he).claims.1, Listing.files]
  apply List.flatMap_congr
  intro item hitem
  rw [List.filterMap_eq_flatMap_toList]
  exact List.flatMap_congr fun e he => (h item (List.mem_of_mem_filter hitem) e he).claims.2

/-- A path that is read is one word. -/
theorem oneWord_of_mem_read {m : Listing} {key path : Str} (h : path ∈ m.read key) :
    ∃ w, path = '/' :: w ∧ w ≠ [] ∧ ∀ c ∈ w, isSpace c = false := by
  have hunder : ∀ (said : List Heard) (current : Option Str), path ∈ under key current said →
      .file path ∈ said := by
    intro said
    induction said with
    | nil => intro current hmem; cases hmem
    | cons s said ih =>
      intro current hmem
      cases s with
      | nothing | header element => exact List.mem_cons_of_mem _ (ih _ hmem)
      | file p =>
        rw [under] at hmem
        split at hmem
        · rcases List.mem_cons.mp hmem with rfl | hmem
          · exact List.mem_cons_self
          · exact List.mem_cons_of_mem _ (ih _ hmem)
        · exact List.mem_cons_of_mem _ (ih _ hmem)
  obtain ⟨item, -, hsaid⟩ := List.mem_flatMap.mp (hunder _ _ h)
  obtain ⟨e, -, hsaid⟩ := List.mem_flatMap.mp ((List.mem_cons.mp hsaid).resolve_left (by simp))
  rw [e.heard_eq] at hsaid
  obtain ⟨piece, -, hpiece⟩ := List.mem_map.mp hsaid
  obtain ⟨mode, ftype, size, w, more, hwords, -, hw⟩ := of_heard_file hpiece
  exact ⟨w, hw, of_mem_words (by rw [hwords]; simp)⟩

/-- The path of every file of a listing that is read back is one word. -/
theorem ReadsBack.oneWord {m : Listing} (h : ReadsBack m) {item : ElementName × List Entry}
    (hitem : item ∈ m.items) {e : Entry} (he : e ∈ item.2) (hfile : e.IsFile) : e.OneWord := by
  have hlisted : '/' :: e.path ∈ m.files item.1.text := by
    refine List.mem_flatMap.mpr ⟨item, List.mem_filter.mpr ⟨hitem, decide_eq_true rfl⟩, ?_⟩
    exact List.mem_filterMap.mpr ⟨e, he, hfile.file⟩
  rw [← (readsBack_iff m).mp h] at hlisted
  obtain ⟨w, hw, hword⟩ := oneWord_of_mem_read hlisted
  rw [Entry.OneWord, (List.cons.inj hw).2]
  exact hword

/-! ## Anchored lines -/

theorem Entry.Anchored.headless {e : Entry} (h : e.Anchored) (hword : e.IsFile → e.OneWord) :
    e.Headless := by
  by_cases hfile : e.IsFile
  · exact (@Entry.headless_of_words e [_] (heard_of_oneWord hfile (hword hfile))).1
  · intro element hheader
    rw [e.heard_eq] at hheader
    obtain ⟨piece, hpiece, htaken⟩ := List.mem_map.mp hheader
    obtain ⟨hne, htab⟩ := of_heard_header htaken
    exact htab (h.2 hfile piece hpiece hne)

theorem Entry.Anchored.claims {e : Entry} (h : e.Anchored) (hfile : e.IsFile)
    (hword : e.OneWord) : e.claims = ['/' :: stripAnsi e.path] := by
  have hheard := heard_of_oneWord hfile hword
  rw [if_neg (h.1 hfile hword.1)] at hheard
  exact (@Entry.headless_of_words e [some ('/' :: stripAnsi e.path)] hheard).2

/-- An anchored line that claims nothing says nothing. -/
theorem Entry.Anchored.silent {e : Entry} (h : e.Anchored) (hfile : ¬ e.IsFile)
    (hclaims : e.claims = []) : ∀ piece ∈ e.pieces, Silent piece := by
  intro piece hpiece
  rw [← heard_eq_nothing_iff]
  cases hheard : Filemap.heard piece with
  | nothing => rfl
  | header element =>
    obtain ⟨hne, htab⟩ := of_heard_header hheard
    exact absurd (h.2 hfile piece hpiece hne) htab
  | file path =>
    have hmem : path ∈ e.claims := by
      rw [Entry.claims, e.heard_eq]
      exact List.mem_filterMap.mpr ⟨.file path, List.mem_map.mpr ⟨piece, hpiece, hheard⟩, rfl⟩
    rw [hclaims] at hmem
    cases hmem

/-- Each file claims one path. If no more are claimed than there are files, the other lines
claim none. -/
theorem claims_eq_nil {es : List Entry} (hone : ∀ e ∈ es, e.IsFile → e.claims.length = 1) :
    (es.filterMap Entry.file).length ≤ (es.flatMap Entry.claims).length ∧
      ((es.flatMap Entry.claims).length ≤ (es.filterMap Entry.file).length →
        ∀ e ∈ es, ¬ e.IsFile → e.claims = []) := by
  induction es with
  | nil => simp
  | cons e es ih =>
    obtain ⟨hle, hnil⟩ := ih fun f hf => hone f (List.mem_cons_of_mem e hf)
    rw [List.flatMap_cons, List.length_append]
    by_cases hfile : e.IsFile
    · rw [List.filterMap_cons_some hfile.file, List.length_cons, hone e List.mem_cons_self hfile]
      refine ⟨by omega, fun hlength f hf hother => ?_⟩
      rcases List.mem_cons.mp hf with rfl | hf
      · exact absurd hfile hother
      · exact hnil (by omega) f hf hother
    · rw [List.filterMap_cons_none (Entry.file_of_not hfile)]
      refine ⟨by omega, fun hlength f hf hother => ?_⟩
      rcases List.mem_cons.mp hf with rfl | hf
      · exact List.length_eq_zero_iff.mp (by omega)
      · exact hnil (by omega) f hf hother

theorem claims_eq_file {es : List Entry} (heq : es.flatMap Entry.claims = es.filterMap Entry.file)
    (hone : ∀ e ∈ es, e.IsFile → e.claims.length = 1)
    (hnil : ∀ e ∈ es, ¬ e.IsFile → e.claims = []) :
    ∀ e ∈ es, e.IsFile → e.claims = ['/' :: e.path] := by
  induction es with
  | nil => simp
  | cons f es ih =>
    have hone' := fun e he => hone e (List.mem_cons_of_mem f he)
    have hnil' := fun e he => hnil e (List.mem_cons_of_mem f he)
    rw [List.flatMap_cons] at heq
    intro e he hfile
    by_cases hhead : f.IsFile
    · obtain ⟨path, hpath⟩ := List.length_eq_one_iff.mp (hone f List.mem_cons_self hhead)
      rw [List.filterMap_cons_some hhead.file, hpath, List.singleton_append] at heq
      obtain ⟨hsame, hrest⟩ := List.cons.inj heq
      rcases List.mem_cons.mp he with rfl | he
      · rw [hpath, hsame]
      · exact ih hrest hone' hnil' e he hfile
    · rw [List.filterMap_cons_none (Entry.file_of_not hhead), hnil f List.mem_cons_self hhead,
        List.nil_append] at heq
      rcases List.mem_cons.mp he with rfl | he
      · exact absurd hfile hhead
      · exact ih heq hone' hnil' e he hfile

theorem filter_key {m : Listing} {item : ElementName × List Entry} (h : item ∈ m.items) :
    (m.items.filter fun i => i.1.text = item.1.text) = [item] := by
  have hItems : ∀ items : List (ElementName × List Entry),
      (items.map (·.1.text)).Nodup → item ∈ items →
      (items.filter fun i => i.1.text = item.1.text) = [item] := by
    intro items
    induction items with
    | nil => simp
    | cons i items ih =>
      intro hnodup hmem
      rw [List.map_cons, List.nodup_cons] at hnodup
      rcases List.mem_cons.mp hmem with rfl | hmem
      · rw [List.filter_cons_of_pos (by simp), List.filter_eq_nil_iff.mpr]
        intro j hj hkey
        exact hnodup.1 (List.mem_map.mpr ⟨j, hj, of_decide_eq_true hkey⟩)
      · rw [List.filter_cons_of_neg, ih hnodup.2 hmem]
        intro hkey
        exact hnodup.1 (List.mem_map.mpr ⟨item, hmem, (of_decide_eq_true hkey).symm⟩)
  exact hItems m.items m.keys_nodup h

theorem Listing.Anchored.legible {m : Listing} (h : m.Anchored) (hread : ReadsBack m) :
    m.Legible := by
  have hword : ∀ item ∈ m.items, ∀ e ∈ item.2, e.IsFile → e.OneWord :=
    fun item hitem e he => hread.oneWord hitem he
  intro item hitem
  have hsame := (readsBack_iff m).mp hread item.1.text
  rw [read_of_headless (fun i hi e he => (h i hi e he).headless (hword i hi e he)),
    Listing.files, filter_key hitem, List.flatMap_singleton, List.flatMap_singleton] at hsame
  have hclaims : ∀ e ∈ item.2, e.IsFile → e.claims = ['/' :: stripAnsi e.path] :=
    fun e he hfile => (h item hitem e he).claims hfile (hword item hitem e he hfile)
  have hone : ∀ e ∈ item.2, e.IsFile → e.claims.length = 1 := by
    intro e he hfile
    rw [hclaims e he hfile, List.length_singleton]
  have hnil := (claims_eq_nil hone).2 (congrArg List.length hsame).le
  intro e he
  refine ⟨fun hfile => ⟨hword item hitem e he hfile, ?_⟩, fun hother =>
    (h item hitem e he).silent hother (hnil e he hother)⟩
  have hpath := claims_eq_file hsame hone hnil e he hfile
  rw [hclaims e he hfile] at hpath
  exact (List.cons.inj (List.singleton_inj.mp hpath)).2

/-! ## Listings without control characters -/

/-- No path or target has an escape character or a line break. -/
def Listing.Plain (m : Listing) : Prop :=
  ∀ item ∈ m.items, ∀ e ∈ item.2, ∀ c ∈ e.path ++ e.target,
    isLineBreak c = false ∧ c ≠ '\x1b'

/-- No symbolic link, and no blank in the path of a regular file or executable. -/
def Listing.Simple (m : Listing) : Prop :=
  ∀ item ∈ m.items, ∀ e ∈ item.2, e.kind ≠ .link ∧
    (e.kind ≠ .dir → e.path ≠ [] ∧ ∀ c ∈ e.path, isSpace c = false)

theorem heard_line (e : Entry) : heard e.line = hearWord e.word := by
  rw [e.line_eq, heard_front_append, Entry.word]

theorem pieces_of_plain {e : Entry}
    (h : ∀ c ∈ e.path ++ e.target, isLineBreak c = false ∧ c ≠ '\x1b') : e.pieces = [e.line] := by
  have hescape : '\x1b' ∉ e.line := fun hc => (plain_line h hc).2 rfl
  rw [Entry.pieces, List.splitOnP_eq_singleton fun c hc => (plain_line h hc).1,
    List.map_singleton, stripAnsi_eq_self hescape]

theorem heard_of_plain {e : Entry}
    (h : ∀ c ∈ e.path ++ e.target, isLineBreak c = false ∧ c ≠ '\x1b') :
    e.heard = [hearWord e.word] := by
  rw [e.heard_eq, pieces_of_plain h, List.map_singleton, heard_line]

theorem read_of_plain {m : Listing} (h : m.Plain) (key : Str) :
    m.read key = (m.items.filter fun item => item.1.text = key).flatMap
      fun item => item.2.filterMap Entry.word := by
  have hsaid : ∀ item ∈ m.items, ∀ e ∈ item.2, e.Headless ∧ e.claims = [e.word].filterMap id :=
    fun item hitem e he => @Entry.headless_of_words e [e.word] (heard_of_plain (h item hitem e he))
  rw [read_of_headless fun item hitem e he => (hsaid item hitem e he).1]
  apply List.flatMap_congr
  intro item hitem
  rw [List.filterMap_eq_flatMap_toList]
  apply List.flatMap_congr
  intro e he
  rw [(hsaid item (List.mem_of_mem_filter hitem) e he).2]
  cases e.word <;> rfl

/-- A symbolic link on one line is claimed. -/
theorem word_of_link {e : Entry} (h : e.kind = .link) : e.word.isSome = true := by
  have hblank : isSpace ' ' = true := by decide
  have hne : words e.shown ≠ [] := by
    rw [Entry.shown, if_pos h, List.append_assoc,
      show " -> ".toList ++ e.target = ' ' :: ("->".toList ++ ' ' :: e.target) from rfl,
      words_append_cons hblank, words_append_cons hblank,
      show words "->".toList = ["->".toList] from rfl]
    simp
  rw [Entry.word, if_neg (by simp [h])]
  simpa [List.isSome_head?] using hne

theorem Listing.Plain.anchored {m : Listing} (h : m.Plain) : m.Anchored := by
  intro item hitem e he
  have hplain := h item hitem e he
  constructor
  · intro hfile hne
    rwa [stripAnsi_eq_self fun hc => (hplain _ (List.mem_append_left _ hc)).2 rfl]
  · intro hother piece hpiece hwords
    rw [pieces_of_plain hplain, List.mem_singleton] at hpiece
    rw [hpiece]
    rfl

theorem Listing.Plain.legible_iff {m : Listing} (h : m.Plain) : m.Legible ↔ m.Simple := by
  refine forall₂_congr fun item hitem => forall₂_congr fun e he => ?_
  have hplain := h item hitem e he
  have hstrip : stripAnsi e.path = e.path :=
    stripAnsi_eq_self fun hc => (hplain _ (List.mem_append_left _ hc)).2 rfl
  have hsilent : (∀ piece ∈ e.pieces, Silent piece) ↔ e.word = none := by
    rw [pieces_of_plain hplain, List.forall_mem_singleton, ← heard_eq_nothing_iff, heard_line]
    cases e.word <;> simp [hearWord]
  rw [Entry.Legible, hsilent]
  cases hkind : e.kind with
  | reg | exe => simp [Entry.IsFile, Entry.OneWord, hkind, hstrip]
  | dir => simp [Entry.IsFile, Entry.word, hkind]
  | link =>
    have hword := word_of_link hkind
    simp only [Entry.IsFile, hkind]
    cases hw : e.word with
    | none =>
      rw [hw] at hword
      cases hword
    | some path => simp

/-! ## The listing -/

/-- **When a listing is read back.** It is when every line is legible, and only if the path of
every file is one word. Where no piece of another line can be taken for the name of an element
and no path of a file is made of escape sequences, it is exactly when every line is legible;
without control characters this means that there is no symbolic link, and neither a blank nor
an empty path among the files. -/
theorem listing_read_back_iff (m : Listing) :
    (m.Legible → ReadsBack m) ∧
    (ReadsBack m → ∀ item ∈ m.items, ∀ e ∈ item.2, e.IsFile → e.OneWord) ∧
    (m.Anchored → (ReadsBack m ↔ m.Legible)) ∧
    (m.Plain → (ReadsBack m ↔ m.Simple)) := by
  have hiff : m.Anchored → (ReadsBack m ↔ m.Legible) :=
    fun h => ⟨h.legible, Listing.Legible.readsBack⟩
  exact ⟨Listing.Legible.readsBack, fun h _ hitem _ he => h.oneWord hitem he, hiff,
    fun h => (hiff h.anchored).trans h.legible_iff⟩

/-- The name of an element. -/
def element : ElementName where
  text := "a.bst".toList
  ends := ⟨['a'], rfl⟩
  stripped := by simp; decide
  oneLine := by
    have hAll : "a.bst".toList.all fun c => !isLineBreak c := by decide
    simpa using hAll
  noEscape := by decide

def entry (kind : Kind) (path target : String) (hpath : '\n' ∉ path.toList)
    (htarget : '\n' ∉ target.toList) : Entry where
  mode := "-rwxr-xr-x".toList
  kind := kind
  size := 7
  pad := 3
  path := path.toList
  target := target.toList
  mode_ne_nil := by decide
  mode_word := by
    have hAll : "-rwxr-xr-x".toList.all fun c => !isSpace c && c != '\x1b' := by decide
    simpa using hAll
  path_oneLine := hpath
  target_oneLine := htarget

/-- An executable and a symbolic link. -/
def linked : Listing where
  items := [(element, [entry .exe "usr/bin/a" "" (by decide) (by decide),
    entry .link "usr/lib64" "lib" (by decide) (by decide)])]
  keys_nodup := by simp

theorem plain_linked : linked.Plain := by
  have hAll : linked.items.all fun item => item.2.all fun e =>
      (e.path ++ e.target).all fun c => !isLineBreak c && c != '\x1b' := by decide
  intro item hitem e he c hc
  have hentry := List.all_eq_true.mp (List.all_eq_true.mp hAll item hitem) e he
  simpa using List.all_eq_true.mp hentry c hc

/-- An executable, and a directory whose name ends in a form feed. -/
def fed : Listing where
  items := [(element, [entry .exe "usr/bin/a" "" (by decide) (by decide),
    entry .dir "usr/lib\x0c" "" (by decide) (by decide)])]
  keys_nodup := by simp

theorem legible_fed : fed.Legible := by
  have hpieces : (entry .dir "usr/lib\x0c" "" (by decide) (by decide)).pieces =
      ["\t-rwxr-xr-x  dir     7  usr/lib".toList, []] := by decide +kernel
  have hspace : "usr/bin/a".toList.all fun c => !isSpace c := by decide
  have hword : ∀ c ∈ "usr/bin/a".toList, isSpace c = false :=
    fun c hc => by simpa using List.all_eq_true.mp hspace c hc
  simp only [Listing.Legible, fed, List.forall_mem_singleton, List.forall_mem_cons]
  refine ⟨⟨fun _ => ⟨⟨by decide, hword⟩, by decide +kernel⟩, fun h => absurd (.inr rfl) h⟩,
    fun h => ?_, fun _ => ?_⟩
  · rcases h with h | h <;> cases h
  · rw [hpieces]
    simp only [List.forall_mem_cons, List.not_mem_nil, false_implies, implies_true, and_true]
    exact ⟨.inr ⟨rfl, .inr (by decide +kernel)⟩, .inl rfl⟩

theorem listing_read_back_iff_linked :
    ReadsBack fed ∧ (∀ item ∈ fed.items, ∀ e ∈ item.2, e.IsFile → e.OneWord) ∧
      (ReadsBack linked ↔ linked.Legible) ∧ (ReadsBack linked ↔ linked.Simple) :=
  have hfed := (listing_read_back_iff fed).1 legible_fed
  ⟨hfed, (listing_read_back_iff fed).2.1 hfed,
    (listing_read_back_iff linked).2.2.1 plain_linked.anchored,
    (listing_read_back_iff linked).2.2.2 plain_linked⟩

/-- A file whose path is an escape sequence, and a symbolic link whose name becomes that path. -/
def swapped : Listing where
  items := [(element, [entry .reg "\x1b[0m" "" (by decide) (by decide),
    entry .link "\x1b\x1b[0m[0m" "x" (by decide) (by decide)])]
  keys_nodup := by simp

/-- By chance two lines that are not legible can make up for each other. -/
theorem readsBack_swapped : ReadsBack swapped ∧ ¬ swapped.Legible := by
  constructor
  · rw [readsBack_iff]
    intro key
    have hheard : swapped.heard =
        [.header "a.bst".toList, .nothing, .file "/\x1b[0m".toList] := by decide +kernel
    rw [Listing.read, hheard]
    by_cases hkey : "a.bst".toList = key
    · rw [← hkey]
      decide +kernel
    · have hnone : swapped.items.filter (fun item => item.1.text = key) = [] := by
        refine List.filter_eq_nil_iff.mpr (List.forall_mem_singleton.mpr ?_)
        rwa [decide_eq_true_iff]
      rw [Listing.files, hnone]
      simpa [under] using hkey
  · intro h
    have hword := (h _ (.head _) _ (.head _)).1 (.inl rfl)
    exact absurd hword.2 (by decide +kernel)

/-- The symbolic link is claimed. -/
theorem link_claimed : ¬ ∀ m : Listing, ReadsBack m := by
  intro h
  have hlinked := h linked "a.bst".toList
  have hread : Dict.get? (listAllContents linked.render) "a.bst".toList =
      some ["/usr/bin/a".toList, "/usr/lib64".toList] := by decide +kernel
  have hfiles : linked.files "a.bst".toList = ["/usr/bin/a".toList] := by decide +kernel
  rw [hread, hfiles] at hlinked
  exact absurd hlinked (by decide)

end XfceLinux.Filemap
