import XfceLinux.Filemap.Colour

/-!
# The run of `gen-filemap.py`

`main` asks `bst show` for the elements and `bst artifact list-contents` for what they contain.
What it writes comes from the claims of the listing (`mem_listed_contentsOf`), and what it asks
for are the lines of `bst show` that end in `.bst` (`listElements_shown`), with colour and
without.
-/

namespace XfceLinux.Filemap

open Lib Lib.Text

/-! ## The program -/

/-- `just`: the exit status and the standard output of a command. -/
abbrev Just := List Str → Nat × Str

/-- `bst(*args)`; `none` when it leaves the program with status 1. -/
def runBst (just : Just) (args : List Str) : Option Str :=
  let (returncode, stdout) := just ("bst".toList :: args)
  if returncode ≠ 0 then none else some (bst stdout)

theorem runBst_of_zero {just : Just} {args : List Str} {stdout : Str}
    (h : just ("bst".toList :: args) = (0, stdout)) : runBst just args = some (bst stdout) := by
  rw [runBst, h]
  rfl

def showArgs (target : Str) : List Str :=
  ["show".toList, "--format".toList, "%\x7bname\x7d".toList, "--deps".toList, "run".toList, target]

def listArgs (elements : List Str) : List Str :=
  ["artifact".toList, "list-contents".toList, "--long".toList] ++ elements

theorem keys_nodup_readLine {st : Reading} (rawLine : Str) (h : (st.result.map (·.1)).Nodup) :
    ((readLine st rawLine).result.map (·.1)).Nodup := by
  rw [readLine_eq]
  cases heard rawLine with
  | nothing | header => exact h
  | file path =>
    rw [Reading.hear]
    split
    · exact h
    · exact Dict.nodup_set h _ _

theorem keys_nodup_listAllContents (out : Str) : ((listAllContents out).map (·.1)).Nodup :=
  List.foldlRecOn (motive := fun st : Reading => (st.result.map (·.1)).Nodup) _ readLine
    (by simp) fun _ h line _ => keys_nodup_readLine line h

/-- The dictionary that `list_all_contents` returns. -/
def contentsOf (out : Str) : Contents where
  items := listAllContents out
  keys_nodup := keys_nodup_listAllContents out

/-- How `main` ends. -/
inductive Outcome
  | failed
  /-- `--dry-run` -/
  | printed (output : Str)
  | written (filemap : Str) (manifest : Bytes)

def main (just : Just) (target : Str) (dry_run : Bool) : Outcome :=
  match runBst just (showArgs target) with
  | none => .failed
  | some out =>
    match runBst just (listArgs (listElements out)) with
    | none => .failed
    | some out =>
      let contents := contentsOf out
      if dry_run then .printed (filemapFile contents ++ ['\n'])
      else .written (filemapFile contents) (manifestFile contents)

/-! ## What `bst show` prints -/

/-- The lines that name elements; some elements show another name. -/
def named (shown : List Str) : List Str :=
  (shown.map (strip isSpace)).filter fun line => ".bst".toList.isSuffixOf line

/-- The lines of a text, one by one. -/
theorem said_unlines {ls : List Str} (h : ∀ l ∈ ls, ∀ c ∈ l, isLineBreak c = false ∧ c ≠ '\x1b') :
    said (Lines.unlines '\n' ls) = ls.filter (!·.isEmpty) := by
  have hpieces : (Lines.unlines '\n' ls).splitOnP isLineBreak = ls ++ [[]] := by
    rw [splitOnP_unlines]
    congr 1
    conv_rhs => rw [← List.flatMap_singleton' ls]
    refine List.flatMap_congr fun l hl => ?_
    exact List.splitOnP_eq_singleton fun c hc => (h l hl c hc).1
  have hplain : ls.map stripAnsi = ls := by
    refine (List.map_congr_left fun l hl => ?_).trans (List.map_id ls)
    exact stripAnsi_eq_self fun hc => (h l hl _ hc).2 rfl
  rw [said_eq_pieces, hpieces, List.map_append, hplain, List.filter_append]
  simp [stripAnsi_eq_self]

theorem listElements_shown {shown : List Str} {stdout : Str}
    (hplain : ∀ l ∈ shown, ∀ c ∈ l, isLineBreak c = false ∧ c ≠ '\x1b')
    (hout : Decorates (Lines.unlines '\n' shown) stdout) :
    listElements (bst stdout) = named shown := by
  have hescape : '\x1b' ∉ Lines.unlines '\n' shown := by
    intro hmem
    obtain ⟨l, hl, hc⟩ := List.mem_flatMap.mp hmem
    rcases List.mem_append.mp hc with hc | hc
    · exact (hplain l hl _ hc).2 rfl
    · simp at hc
  rw [listElements_eq, said_bst, said_of_decorates hout hescape, said_unlines hplain,
    List.filter_filter, named, List.filter_map]
  refine congrArg _ (List.filter_congr fun l _ => ?_)
  cases l with
  | nil => decide
  | cons c s => simp

/-! ## What is listed -/

/-- The claims of a listing: for each element that is not skipped the paths its lines give. -/
def Listing.claims (m : Listing) : List (Str × Str) :=
  (m.items.filter fun item => !skipPrefixes.any (·.isPrefixOf item.1.text)).flatMap
    fun item => (item.2.filterMap Entry.word).map (·, item.1.text)

theorem escape_notMem_render {m : Listing} (h : m.Plain) : '\x1b' ∉ m.render := by
  intro hmem
  obtain ⟨l, hl, hc⟩ := List.mem_flatMap.mp hmem
  rcases List.mem_append.mp hc with hc | hc
  · obtain ⟨item, hitem, hl⟩ := List.mem_flatMap.mp hl
    rcases List.mem_cons.mp hl with rfl | hl
    · rcases List.mem_append.mp hc with hc | hc
      · exact item.1.noEscape hc
      · simp at hc
    · obtain ⟨e, he, rfl⟩ := List.mem_map.mp hl
      exact (plain_line (h item hitem e he) hc).2 rfl
  · simp at hc

theorem mem_contentsOf {m : Listing} (h : m.Plain) {stdout : Str} (hout : Decorates m.render stdout)
    (element : Str) (files : List Str) :
    (element, files) ∈ (contentsOf (bst stdout)).items ↔ files ≠ [] ∧
      files = (m.items.filter fun item => item.1.text = element).flatMap
        fun item => item.2.filterMap Entry.word := by
  have hsame : listAllContents (bst stdout) = listAllContents m.render := by
    rw [listAllContents_eq, said_bst, said_of_decorates hout (escape_notMem_render h),
      ← listAllContents_eq]
  change (element, files) ∈ listAllContents (bst stdout) ↔ _
  rw [hsame, Dict.mem_iff_get? (keys_nodup_listAllContents _),
    get?_listAllContents, read_of_plain h]
  split
  · rename_i hnil
    rw [hnil]
    simp
  · rename_i hne
    rw [Option.some_inj]
    constructor
    · rintro rfl
      exact ⟨hne, rfl⟩
    · exact fun hfiles => hfiles.2.symm

/-- **The claims.** What `main` lists are the claims of the listing. -/
theorem mem_listed_contentsOf {m : Listing} (h : m.Plain) {stdout : Str}
    (hout : Decorates m.render stdout) (claim : Str × Str) :
    claim ∈ listed (contentsOf (bst stdout)) ↔ claim ∈ m.claims := by
  obtain ⟨path, element⟩ := claim
  simp only [listed, Listing.claims, List.mem_flatMap, List.mem_filter, List.mem_map, Prod.mk.injEq]
  constructor
  · rintro ⟨⟨key, files⟩, ⟨hitem, hskip⟩, p, hp, rfl, rfl⟩
    obtain ⟨-, rfl⟩ := (mem_contentsOf h hout key files).mp hitem
    obtain ⟨item, hfound, hword⟩ := List.mem_flatMap.mp hp
    obtain ⟨hmem, hkey⟩ := List.mem_filter.mp hfound
    have htext : item.1.text = key := of_decide_eq_true hkey
    exact ⟨item, ⟨hmem, by rwa [htext]⟩, p, hword, rfl, htext⟩
  · rintro ⟨item, ⟨hitem, hskip⟩, p, hword, rfl, rfl⟩
    have hp : p ∈ (m.items.filter fun i => i.1.text = item.1.text).flatMap
        fun i => i.2.filterMap Entry.word :=
      List.mem_flatMap.mpr ⟨item, List.mem_filter.mpr ⟨hitem, decide_eq_true rfl⟩, hword⟩
    exact ⟨_, ⟨(mem_contentsOf h hout item.1.text _).mpr ⟨List.ne_nil_of_mem hp, rfl⟩, hskip⟩,
      p, hp, rfl, rfl⟩

end XfceLinux.Filemap
