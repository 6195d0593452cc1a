import XfceLinux.Dashboard.ShowOutput
import XfceLinux.Lib.Unfold

/-!
# The collapsible tree of the page

The page draws a dependency tree one list at a time. A list is drawn when the element above it
is opened, without the elements that stand above it; opening an element whose list is there
draws the first missing list below it. An element on its own list of dependencies is counted
and not drawn. The names travel through the attributes `data-node` and `data-lazy`, out of which
they are taken to come as they went in; `_escAttr` leaves `&` alone.

Whatever is opened, the page shows the dependency paths along which nothing is met twice but a
root that depends on itself, down to the elements that are shut (`page_shows`), and opening the
root again and again draws the whole tree (`page_completes`). A count may be off by the
dependencies of an element on itself (`counts_right`).
-/

namespace XfceLinux.Dashboard.Page

open Lib.Text Lib.Unfold

/-- `_treeData`; the server sends no empty dependency (`named_showNodes`). -/
structure TreeData where
  nodes : List (Str × List Str)
  root : Str
  named : ∀ e ∈ nodes, [] ∉ e.2

/-- `nodes[name] || []` -/
def TreeData.deps (t : TreeData) (name : Str) : List Str := (Lib.Dict.get? t.nodes name).getD []

/-- `_buildShallowNode`, in front of the items of `rest`. -/
def buildShallowNode (t : TreeData) (ancestors : List Str) (name : Str) (rest : Items Str Nat) :
    Items Str Nat :=
  let deps := (t.deps name).filter fun d => !ancestors.contains d
  if deps.length = 0 then .leaf name rest else .node name deps.length true .nil rest

/-- `_lazyExpandNode` for the list of `name`, which stands below the elements of `above`. -/
def lazyExpandNode (t : TreeData) (above : List Str) (name : Str) : Items Str Nat :=
  -- `if (dn) ancestors.add(dn)`
  let ancestors := (name :: above).filter (· ≠ [])
  let deps := (t.deps name).filter fun d => !ancestors.contains d
  deps.foldr (buildShallowNode t (ancestors ++ [name])) .nil

/-- `renderCollapsibleTree` without a filter. -/
def renderCollapsibleTree (t : TreeData) : Items Str Nat :=
  let rootDeps := t.deps t.root
  .node t.root rootDeps.length false (rootDeps.foldr (buildShallowNode t [t.root]) .nil) .nil

/-- The listener of `toggle`, for an element that is opened. -/
def toggled (t : TreeData) (page : Items Str Nat) (target : List Nat) : Items Str Nat :=
  page.openAt (lazyExpandNode t) [] target

/-- The page after its elements have been opened in some order. -/
def page (t : TreeData) (run : List (List Nat)) : Items Str Nat :=
  run.foldl (toggled t) (renderCollapsibleTree t)

/-- From an element to the root, each a dependency of the next. Below the root and its
dependencies nothing is met twice. -/
def DepPath (t : TreeData) (c : List Str) : Prop :=
  ∃ q, c = q ++ [t.root] ∧ c.IsChain (fun d name => d ∈ t.deps name) ∧ q.Nodup ∧
    t.root ∉ q.dropLast

/-! ## What the server sends -/

theorem named_set {nodes : List (Str × List Str)} {deps : List Str} (name : Str)
    (h : ∀ e ∈ nodes, [] ∉ e.2) (hdeps : [] ∉ deps) :
    ∀ e ∈ Lib.Dict.set nodes name deps, [] ∉ e.2 := by
  induction nodes with
  | nil => simpa [Lib.Dict.set] using hdeps
  | cons e nodes ih =>
    obtain ⟨he, hnodes⟩ := List.forall_mem_cons.mp h
    rw [Lib.Dict.set]
    split
    · exact List.forall_mem_cons.mpr ⟨hdeps, hnodes⟩
    · exact List.forall_mem_cons.mpr ⟨he, ih hnodes⟩

/-- No dependency read so far is empty. -/
def Named (s : Tree.ShowReader) : Prop :=
  (∀ e ∈ s.nodes, [] ∉ e.2) ∧ ∀ e ∈ s.current, [] ∉ e.2

theorem nil_notMem_dependency (part : Str) : [] ∉ Tree.dependency part := by
  rw [Tree.dependency]
  split
  · exact List.not_mem_nil
  · rename_i hne
    simpa using Ne.symm hne

theorem Named.flush {s : Tree.ShowReader} (h : Named s) : ∀ e ∈ s.flush, [] ∉ e.2 := by
  obtain ⟨nodes, current⟩ := s
  cases current with
  | none => exact h.1
  | some element => exact named_set _ h.1 (h.2 element rfl)

theorem Named.line {s : Tree.ShowReader} (h : Named s) (raw_line : Str) :
    Named (s.line raw_line) := by
  rw [Tree.ShowReader.line]
  split
  · refine ⟨h.flush, ?_⟩
    rintro e ⟨⟩
    dsimp only
    split
    · exact List.not_mem_nil
    · exact nil_notMem_dependency _
  · split
    · exact h
    · rename_i name deps hcurrent
      dsimp only
      split
      · refine ⟨h.1, ?_⟩
        rintro e ⟨⟩
        rw [List.mem_append, not_or]
        exact ⟨h.2 _ hcurrent, nil_notMem_dependency _⟩
      · exact h

theorem named_showNodes (stdout : Str) : ∀ e ∈ Tree.showNodes stdout, [] ∉ e.2 := by
  have hread : Named ((splitlines stdout).foldl Tree.ShowReader.line ⟨[], none⟩) :=
    List.foldlRecOn _ _ ⟨by simp, by simp⟩ fun s hs l _ => Named.line hs l
  exact hread.flush

/-- The tree of a `bst show`. -/
def TreeData.ofShow (stdout root : Str) : TreeData :=
  ⟨Tree.showNodes stdout, root, named_showNodes stdout⟩

/-! ## The rule of the page -/

variable {t : TreeData}

theorem ne_nil_of_mem_deps {name d : Str} (h : d ∈ t.deps name) : d ≠ [] := by
  rw [TreeData.deps, Lib.Dict.get?] at h
  cases he : t.nodes.find? fun e => e.1 = name with
  | none =>
    rw [he] at h
    cases h
  | some e =>
    rw [he] at h
    rintro rfl
    exact t.named e (List.mem_of_find?_eq_some he) h

theorem mem_keys_of_deps {name : Str} (h : t.deps name ≠ []) : name ∈ t.nodes.map (·.1) := by
  rw [← Lib.Dict.isSome_get?]
  by_contra hnone
  rw [Option.not_isSome_iff_eq_none] at hnone
  exact h (by rw [TreeData.deps, hnone]; rfl)

/-- The elements that `_buildShallowNode` counts for `name` below `above`. -/
def TreeData.counted (t : TreeData) (above : List Str) (name : Str) : List Str :=
  (t.deps name).filter fun d => !above.contains d

theorem mem_counted {above : List Str} {name d : Str} :
    d ∈ t.counted above name ↔ d ∈ t.deps name ∧ d ∉ above := by
  simp [TreeData.counted]

theorem counted_cons (t : TreeData) (above : List Str) (name : Str) :
    t.counted (name :: above) name = (t.counted above name).filter (· ≠ name) := by
  rw [TreeData.counted, TreeData.counted, List.filter_filter]
  refine List.filter_congr fun d _ => ?_
  simp

def rule (t : TreeData) : Rule Str Nat where
  label above name :=
    if (t.counted above name).length = 0 then none else some (t.counted above name).length
  below above name := t.counted (name :: above) name
  below_of_leaf {above name} h := by
    have hnil : t.counted above name = [] := by
      by_contra hne
      rw [if_neg (by simpa using hne)] at h
      cases h
    rw [counted_cons, hnil, List.filter_nil]

theorem filter_ancestors {ancestors above : List Str} (name : Str)
    (h : ∀ d, d ≠ [] → (d ∈ ancestors ↔ d ∈ above)) :
    ((t.deps name).filter fun d => !ancestors.contains d) = t.counted above name := by
  refine List.filter_congr fun d hd => ?_
  simp [h d (ne_nil_of_mem_deps hd)]

theorem buildShallowNode_eq {ancestors above : List Str}
    (h : ∀ d, d ≠ [] → (d ∈ ancestors ↔ d ∈ above)) :
    buildShallowNode t ancestors = (rule t).item above := by
  funext name rest
  rw [buildShallowNode, filter_ancestors name h, Rule.item]
  by_cases hcount : (t.counted above name).length = 0
  · simp only [rule, if_pos hcount]
  · simp only [rule, if_neg hcount]

theorem lazyExpandNode_eq : lazyExpandNode t = (rule t).expand := by
  funext above name
  have hmem : ∀ d : Str, d ≠ [] → (d ∈ (name :: above).filter (· ≠ []) ↔ d ∈ name :: above) := by
    intro d hd
    simp [hd]
  have hmem' : ∀ d : Str, d ≠ [] →
      (d ∈ (name :: above).filter (· ≠ []) ++ [name] ↔ d ∈ name :: above) := by
    intro d hd
    rw [List.mem_append, hmem d hd, List.mem_singleton]
    exact or_iff_left_of_imp fun h => h ▸ List.mem_cons_self
  rw [lazyExpandNode, Rule.expand, Rule.draw, filter_ancestors name hmem,
    buildShallowNode_eq hmem']
  rfl

/-! ## Paths -/

theorem depPath_root : DepPath t [t.root] :=
  ⟨[], rfl, List.isChain_singleton _, List.nodup_nil, List.not_mem_nil⟩

theorem depPath_of_chain {c : List Str} (h : (rule t).Chain [t.root] (t.deps t.root) c) :
    DepPath t c := by
  induction h with
  | top hname =>
    exact ⟨[_], rfl, by simpa using hname, List.nodup_singleton _, List.not_mem_nil⟩
  | @down c name m hchain hm ih =>
    obtain ⟨q, hq, hdeps, hnodup, hroot⟩ := ih
    obtain ⟨hdep, hnew⟩ := mem_counted.mp hm
    rw [hq, List.mem_append, List.mem_singleton, not_or] at hnew
    refine ⟨m :: q, by rw [hq, List.cons_append], ?_, List.nodup_cons.mpr ⟨hnew.1, hnodup⟩, ?_⟩
    · exact List.isChain_cons_cons.mpr ⟨hdep, hdeps⟩
    · cases q with
      | nil => exact List.not_mem_nil
      | cons _ _ => exact List.not_mem_cons_of_ne_of_not_mem (Ne.symm hnew.2) hroot

theorem chain_of_depPath {q : List Str}
    (hdeps : (q ++ [t.root]).IsChain (fun d name => d ∈ t.deps name)) (hnodup : q.Nodup)
    (hroot : t.root ∉ q.dropLast) :
    q = [] ∨ (rule t).Chain [t.root] (t.deps t.root) (q ++ [t.root]) := by
  induction q with
  | nil => exact .inl rfl
  | cons m q ih =>
    refine .inr ?_
    cases q with
    | nil => exact .top (List.isChain_cons_cons.mp hdeps).1
    | cons name q =>
      rw [List.dropLast_cons_cons, List.mem_cons, not_or] at hroot
      obtain ⟨hdep, hdeps⟩ := List.isChain_cons_cons.mp hdeps
      obtain ⟨hnew, hnodup⟩ := List.nodup_cons.mp hnodup
      have hchain := (ih hdeps hnodup hroot.2).resolve_left (List.cons_ne_nil _ _)
      have hfresh : m ∉ (name :: q) ++ [t.root] := by
        rw [List.mem_append, List.mem_singleton, not_or]
        exact ⟨hnew, Ne.symm hroot.1⟩
      exact .down hchain (mem_counted.mpr ⟨hdep, hfresh⟩)

/-! ## Every run -/

/-- The root's own list is there from the start. -/
theorem page_eq (t : TreeData) (run : List (List Nat)) : ∃ below,
    page t run = .node t.root (t.deps t.root).length false below .nil ∧
      (rule t).Cut [t.root] (t.deps t.root) below := by
  induction run using List.reverseRecOn with
  | nil =>
    refine ⟨_, rfl, ?_⟩
    have hroot : buildShallowNode t [t.root] = (rule t).item [t.root] :=
      buildShallowNode_eq fun _ _ => Iff.rfl
    rw [hroot]
    exact (rule t).cut_draw _ _
  | append_singleton run target ih =>
    obtain ⟨below, hpage, hcut⟩ := ih
    rw [page, List.foldl_append, List.foldl_cons, List.foldl_nil, ← page, hpage, toggled,
      lazyExpandNode_eq]
    match target with
    | [] => exact ⟨below, rfl, hcut⟩
    | [0] =>
      refine ⟨_, rfl, ?_⟩
      cases hopen : Items.openFirst (rule t).expand [t.root] below with
      | none => exact hcut
      | some below' => exact (hcut.of_openFirst hopen).1
    | 0 :: i :: is => exact ⟨_, rfl, hcut.openAt (i :: is)⟩
    | (i + 1) :: is => cases is <;> exact ⟨below, rfl, hcut⟩

theorem depPath_iff_below {c : List Str} {name : Str}
    (h : (rule t).Chain [t.root] (t.deps t.root) (name :: c)) (d : Str) :
    d ∈ (rule t).below c name ↔ DepPath t (d :: name :: c) := by
  constructor
  · exact fun hd => depPath_of_chain (.down h hd)
  · rintro ⟨q, hq, hdeps, hnodup, hroot⟩
    have hlength := h.length_lt
    rw [hq] at hdeps
    rcases chain_of_depPath hdeps hnodup hroot with rfl | hchain
    · cases hq
    · rw [← hq] at hchain
      exact hchain.mem_below (Nat.le_of_lt_succ hlength)

/-- **What the page shows.** In whatever order its elements are opened, the elements of the
page stand at the ends of dependency paths. Below an element that is not shut stand all the
elements that go on with its path, and no others. Each dependency path is shown down to its
end or to an element that is shut. -/
theorem page_shows (t : TreeData) (run : List (List Nat)) :
    (∀ row ∈ (page t run).rows [], DepPath t row.chain ∧
        (row.shut = false → ∀ d, d ∈ row.below ↔ DepPath t (d :: row.chain))) ∧
      ∀ c, DepPath t c →
        ∃ row ∈ (page t run).rows [], row.chain <:+ c ∧ (row.chain = c ∨ row.shut) := by
  obtain ⟨below, hpage, hcut⟩ := page_eq t run
  rw [hpage, Items.rows, Items.rows, List.append_nil, hcut.names_eq]
  constructor
  · intro row hrow
    rcases List.mem_cons.mp hrow with rfl | hrow
    · refine ⟨depPath_root, fun _ d => ⟨fun hd => depPath_of_chain (.top hd), ?_⟩⟩
      rintro ⟨q, hq, hdeps, -⟩
      exact (List.isChain_cons_cons.mp hdeps).1
    · obtain ⟨c, name, hchain, hpath, -, hbelow⟩ := hcut.row hrow
      rw [hchain]
      refine ⟨depPath_of_chain hpath, fun hshut d => ?_⟩
      rw [hbelow hshut]
      exact depPath_iff_below hpath d
  · rintro c ⟨q, rfl, hdeps, hnodup, hroot⟩
    rcases chain_of_depPath hdeps hnodup hroot with rfl | hchain
    · exact ⟨_, List.mem_cons_self, List.suffix_rfl, .inl rfl⟩
    · obtain ⟨row, hrow, hdrawn⟩ := hcut.chain_drawn hchain
      exact ⟨row, List.mem_cons_of_mem _ hrow, hdrawn⟩

theorem count_eq_iff (t : TreeData) (above : List Str) (name : Str) :
    ((rule t).label above name).getD 0 = ((rule t).below above name).length ↔
      name ∉ t.counted above name := by
  have hlabel : ((rule t).label above name).getD 0 = (t.counted above name).length := by
    by_cases hcount : (t.counted above name).length = 0
    · rw [hcount, show (rule t).label above name = none from if_pos hcount, Option.getD_none]
    · rw [show (rule t).label above name = some _ from if_neg hcount, Option.getD_some]
  have hbelow : (rule t).below above name = (t.counted above name).filter (· ≠ name) :=
    counted_cons t above name
  rw [hlabel, hbelow, eq_comm, List.length_filter_eq_length_iff]
  constructor
  · intro h hmem
    simpa using h name hmem
  · rintro h d hd
    simpa using fun heq : d = name => h (heq ▸ hd)

theorem mem_above_iff {above : List Str} {name : Str}
    (h : (rule t).Chain [t.root] (t.deps t.root) (name :: above)) :
    name ∈ above ↔ name = t.root := by
  obtain ⟨q, hq, -, hnodup, -⟩ := depPath_of_chain h
  have hlength := h.length_lt
  cases q with
  | nil =>
    rw [hq] at hlength
    exact absurd hlength (lt_irrefl _)
  | cons m q =>
    rw [List.cons_append] at hq
    obtain ⟨rfl, rfl⟩ := List.cons.inj hq
    rw [List.mem_append, List.mem_singleton]
    exact or_iff_right (List.nodup_cons.mp hnodup).1

/-- **Counts.** In whatever order the elements are opened, the number on an element that is not
shut is the number of elements below it, unless it depends on itself and is not the root. -/
theorem counts_right (t : TreeData) (run : List (List Nat)) :
    ∀ row ∈ (page t run).rows [], row.shut = false →
      (row.label.getD 0 = row.below.length ↔
        ∀ name ∈ row.chain.head?, name ≠ t.root → name ∉ t.deps name) := by
  obtain ⟨below, hpage, hcut⟩ := page_eq t run
  rw [hpage, Items.rows, Items.rows, List.append_nil, hcut.names_eq]
  intro row hrow hshut
  rcases List.mem_cons.mp hrow with rfl | hrow
  · simp
  · obtain ⟨above, name, hchain, hpath, hlabel, hbelow⟩ := hcut.row hrow
    rw [hlabel, hbelow hshut, count_eq_iff, hchain, mem_counted, mem_above_iff hpath]
    simp only [List.head?_cons, Option.mem_some_iff, forall_eq']
    tauto

/-- `b` depends on itself. -/
def itself : TreeData where
  nodes := [("a".toList, ["b".toList]), ("b".toList, ["b".toList, "c".toList])]
  root := "a".toList
  named := by decide

theorem counts_right_itself : ¬∀ row ∈ (page itself [[0]]).rows [],
    row.shut = false → row.label.getD 0 = row.below.length := by
  intro h
  let row : Items.Row Str Nat := ⟨["b".toList, "a".toList], some 2, false, ["c".toList]⟩
  have hrow : row ∈ (page itself [[0]]).rows [] := by decide
  exact (counts_right itself [[0]] row hrow rfl).mp (h row hrow rfl) "b".toList rfl (by decide)
    (by decide)

/-! ## The whole page -/

theorem exists_whole (t : TreeData) :
    ∃ below, (rule t).Cut [t.root] (t.deps t.root) below ∧ below.Whole := by
  -- the elements with dependencies that are not yet on the path
  let rank (above : List Str) (name : Str) : Nat :=
    ((t.nodes.map (·.1)).toFinset \ (name :: above).toFinset).card
  suffices hless : ∀ c name, ∀ m ∈ (rule t).below c name, (rule t).label (name :: c) m ≠ none →
      rank (name :: c) m < rank c name from Rule.exists_whole hless _ _
  intro c name m hm hlabel
  obtain ⟨hdep, hnew⟩ := mem_counted.mp hm
  have hdeps : t.deps m ≠ [] := by
    rintro hnil
    exact hlabel (by simp [rule, TreeData.counted, hnil])
  refine Finset.card_lt_card (Finset.ssubset_iff_of_subset ?_ |>.mpr ⟨m, ?_, ?_⟩)
  · exact Finset.sdiff_subset_sdiff subset_rfl (by simp)
  · rw [Finset.mem_sdiff, List.mem_toFinset, List.mem_toFinset]
    exact ⟨mem_keys_of_deps hdeps, hnew⟩
  · simp

/-- Opening the root draws one list more, as long as one is missing. -/
theorem opened_reopened (t : TreeData) (run : List (List Nat)) (n : Nat) :
    (page t (run ++ List.replicate n [0])).Whole ∨
      n < (page t (run ++ List.replicate n [0])).opened := by
  induction n with
  | zero =>
    obtain ⟨below, hpage, -⟩ := page_eq t run
    rw [List.replicate_zero, List.append_nil, hpage]
    exact .inr (by simp [Items.opened])
  | succ n ih =>
    obtain ⟨below, hpage, hcut⟩ := page_eq t (run ++ List.replicate n [0])
    have hnext : page t (run ++ List.replicate (n + 1) [0]) =
        .node t.root (t.deps t.root).length false
          ((Items.openFirst (rule t).expand [t.root] below).getD below) .nil := by
      rw [List.replicate_succ', ← List.append_assoc, page, List.foldl_append, ← page, hpage,
        List.foldl_cons, List.foldl_nil, toggled, lazyExpandNode_eq]
      rfl
    rw [hpage] at ih
    rw [hnext]
    cases hopen : Items.openFirst (rule t).expand [t.root] below with
    | none =>
      have hwhole := (Rule.openFirst_eq_none _).mp hopen
      exact .inl (by simpa [Items.Whole, Items.shuts] using hwhole)
    | some below' =>
      obtain ⟨-, hcount⟩ := hcut.of_openFirst hopen
      rcases ih with hwhole | hless
      · have hnone : Items.openFirst (rule t).expand [t.root] below = none :=
          (Rule.openFirst_eq_none _).mpr (by simpa [Items.Whole, Items.shuts] using hwhole)
        rw [hnone] at hopen
        cases hopen
      · refine .inr ?_
        simp only [Items.opened, Option.getD_some, hcount, Bool.false_eq_true, if_false] at hless ⊢
        omega

/-- **The whole page.** There is one page with every element open. Every order of openings that
leaves nothing shut ends in it, none draws more lists than it has, and opening the root as often
as it has lists leads to it from anywhere. -/
theorem page_completes (t : TreeData) : ∃ whole : Items Str Nat, ∀ run,
    ((page t run).Whole ↔ page t run = whole) ∧
      (page t run).opened + (page t run).shuts ≤ whole.opened ∧
      page t (run ++ List.replicate whole.opened [0]) = whole := by
  obtain ⟨drawn, hdrawn, hwhole⟩ := exists_whole t
  let whole : Items Str Nat := .node t.root (t.deps t.root).length false drawn .nil
  have hle (run : List (List Nat)) :
      (page t run).opened + (page t run).shuts ≤ whole.opened := by
    obtain ⟨below, hpage, hcut⟩ := page_eq t run
    have hbelow := hcut.opened_add_shuts_le hdrawn hwhole
    rw [hpage]
    simp only [whole, Items.opened, Items.shuts, Bool.false_eq_true, if_false]
    omega
  have hiff (run : List (List Nat)) : (page t run).Whole ↔ page t run = whole := by
    obtain ⟨below, hpage, hcut⟩ := page_eq t run
    rw [hpage]
    constructor
    · intro h
      have hdone : below.Whole := by simpa [Items.Whole, Items.shuts] using h
      rw [hcut.eq_of_whole hdrawn hdone hwhole]
    · intro h
      rw [h]
      simpa [whole, Items.Whole, Items.shuts] using hwhole
  refine ⟨whole, fun run => ⟨hiff run, hle run, ?_⟩⟩
  rcases opened_reopened t run whole.opened with h | h
  · exact (hiff _).mp h
  · have := hle (run ++ List.replicate whole.opened [0])
    omega

end XfceLinux.Dashboard.Page
