import Mathlib

/-!
# Trees that are unfolded on demand

What stands below an item depends on the items above it. A tree of such items is drawn one
list at a time: an item with more below it is drawn shut, and opening it draws the list below
it. Whatever has been opened, what is drawn is a cut of the whole tree (`Rule.Cut`). There is
one whole tree (`Cut.eq_of_whole`), and it is finite when a rank decreases on the way down
(`Rule.exists_whole`). Each opening brings the drawing one list nearer to it
(`Cut.of_openFirst`, `Cut.opened_add_shuts_le`).
-/

namespace XfceLinux.Lib.Unfold

/-- A list of items, with what is drawn below each. -/
inductive Items (α β : Type)
  | nil
  | leaf (name : α) (rest : Items α β)
  | node (name : α) (label : β) (shut : Bool) (below rest : Items α β)
deriving DecidableEq

variable {α β : Type}

namespace Items

/-- The names in the list itself. -/
def names : Items α β → List α
  | nil => []
  | leaf name rest | node name _ _ _ rest => name :: rest.names

/-- How many items are open. -/
def opened : Items α β → Nat
  | nil => 0
  | leaf _ rest => rest.opened
  | node _ _ shut below rest => (if shut then 0 else 1) + below.opened + rest.opened

/-- How many items are shut. -/
def shuts : Items α β → Nat
  | nil => 0
  | leaf _ rest => rest.shuts
  | node _ _ shut below rest => (if shut then 1 else 0) + below.shuts + rest.shuts

/-- Nothing is left to be opened. -/
def Whole (items : Items α β) : Prop := items.shuts = 0

section Open

-- the list drawn below an item that is opened; the names above it come nearest first
variable (expand : List α → α → Items α β)

/-- Open the first shut item from the top. -/
def openFirst (above : List α) : Items α β → Option (Items α β)
  | nil => none
  | leaf name rest => (openFirst above rest).map (leaf name)
  | node name label true _ rest => some (node name label false (expand above name) rest)
  | node name label false below rest =>
    match openFirst (name :: above) below with
    | some below => some (node name label false below rest)
    | none => (openFirst above rest).map (node name label false below)

/-- Open the first shut item from an item on, the item and what is below it. The item is
given by its place in the list and the places of those above it. -/
def openAt (above : List α) : List Nat → Items α β → Items α β
  | [], items => items
  | _ :: _, nil => nil
  | 0 :: _, leaf name rest => leaf name rest
  | [0], node name label true _ rest => node name label false (expand above name) rest
  | [0], node name label false below rest =>
    node name label false ((openFirst expand (name :: above) below).getD below) rest
  | 0 :: i :: is, node name label shut below rest =>
    node name label shut (openAt (name :: above) (i :: is) below) rest
  | (i + 1) :: is, leaf name rest => leaf name (openAt above (i :: is) rest)
  | (i + 1) :: is, node name label shut below rest =>
    node name label shut below (openAt above (i :: is) rest)

end Open

/-- An item as it is drawn. -/
structure Row (α β : Type) where
  /-- Its name and the names above it. -/
  chain : List α
  label : Option β
  shut : Bool
  /-- The names drawn below it. -/
  below : List α
deriving DecidableEq

def rows (above : List α) : Items α β → List (Row α β)
  | nil => []
  | leaf name rest => ⟨name :: above, none, false, []⟩ :: rows above rest
  | node name label shut below rest =>
    ⟨name :: above, some label, shut, below.names⟩ ::
      (rows (name :: above) below ++ rows above rest)

end Items

open Items

/-- What is drawn for a name below the names `above`: a leaf, or a label and a list. -/
structure Rule (α β : Type) where
  label : List α → α → Option β
  below : List α → α → List α
  below_of_leaf : ∀ {above name}, label above name = none → below above name = []

namespace Rule

variable (r : Rule α β)

/-- An item in front of others. -/
def item (above : List α) (name : α) (rest : Items α β) : Items α β :=
  match r.label above name with
  | none => leaf name rest
  | some label => node name label true nil rest

/-- A list in which everything is shut. -/
def draw (above names : List α) : Items α β := names.foldr (r.item above) nil

def expand (above : List α) (name : α) : Items α β :=
  r.draw (name :: above) (r.below above name)

/-- The names from an item of the whole tree up. -/
inductive Chain (above names : List α) : List α → Prop
  | top {name : α} : name ∈ names → Chain above names (name :: above)
  | down {c : List α} {name m : α} : Chain above names (name :: c) → m ∈ r.below c name →
      Chain above names (m :: name :: c)

/-- The whole list of `names`, cut at items that are shut. -/
inductive Cut : List α → List α → Items α β → Prop
  | nil {above : List α} : Cut above [] nil
  | leaf {above names : List α} {name : α} {rest : Items α β} :
      r.label above name = none → Cut above names rest →
      Cut above (name :: names) (leaf name rest)
  | shut {above names : List α} {name : α} {label : β} {rest : Items α β} :
      r.label above name = some label → Cut above names rest →
      Cut above (name :: names) (node name label true nil rest)
  | unfolded {above names : List α} {name : α} {label : β} {below rest : Items α β} :
      r.label above name = some label → Cut (name :: above) (r.below above name) below →
      Cut above names rest → Cut above (name :: names) (node name label false below rest)

variable {r} {above names c : List α} {name : α} {items items' : Items α β}

/-! ## Chains -/

theorem Chain.under (h : r.Chain (name :: above) (r.below above name) c) (hname : name ∈ names) :
    r.Chain above names c := by
  induction h with
  | top hm => exact .down (.top hname) hm
  | down _ hm ih => exact .down ih hm

theorem Chain.mono {more : List α} (h : r.Chain above names c) (hsub : names ⊆ more) :
    r.Chain above more c := by
  induction h with
  | top hname => exact .top (hsub hname)
  | down _ hm ih => exact .down ih hm

/-- A chain from its upper end. -/
theorem Chain.split (h : r.Chain above names c) :
    ∃ name ∈ names, c = name :: above ∨ r.Chain (name :: above) (r.below above name) c := by
  induction h with
  | top hname => exact ⟨_, hname, .inl rfl⟩
  | down _ hm ih =>
    obtain ⟨top, htop, heq | hchain⟩ := ih
    · obtain ⟨rfl, rfl⟩ := List.cons.inj heq
      exact ⟨_, htop, .inr (.top hm)⟩
    · exact ⟨top, htop, .inr (.down hchain hm)⟩

theorem Chain.split_cons (h : r.Chain above (name :: names) c) :
    c = name :: above ∨ r.Chain (name :: above) (r.below above name) c ∨ r.Chain above names c := by
  obtain ⟨top, htop, heq | hchain⟩ := h.split <;> rcases List.mem_cons.mp htop with rfl | htop
  · exact .inl heq
  · exact .inr (.inr (heq ▸ .top htop))
  · exact .inr (.inl hchain)
  · exact .inr (.inr (hchain.under htop))

theorem Chain.suffix (h : r.Chain above names c) : above <:+ c := by
  induction h with
  | top _ => exact List.suffix_cons _ _
  | down _ _ ih => exact ih.trans (List.suffix_cons _ _)

theorem Chain.length_lt (h : r.Chain above names c) : above.length < c.length := by
  induction h with
  | top _ => exact Nat.lt_succ_self _
  | down _ _ ih => exact Nat.lt_succ_of_lt ih

/-- The last step of a chain. -/
theorem Chain.mem_below {m : α} (h : r.Chain above names (m :: name :: c))
    (hlength : above.length ≤ c.length) : m ∈ r.below c name := by
  cases h with
  | top _ => simp at hlength
  | down _ hm => exact hm

/-! ## What is drawn -/

theorem cut_draw (r : Rule α β) (above names : List α) :
    r.Cut above names (r.draw above names) := by
  induction names with
  | nil => exact .nil
  | cons name names ih =>
    rw [draw, List.foldr_cons, item]
    split
    · rename_i hlabel
      exact .leaf hlabel ih
    · rename_i label hlabel
      exact .shut hlabel ih

theorem Cut.names_eq (h : r.Cut above names items) : items.names = names := by
  induction h with
  | nil => rfl
  | leaf _ _ ih | shut _ _ ih | unfolded _ _ _ _ ih => rw [Items.names, ih]

/-- An item is drawn where the whole tree has it, with its label and, unless it is shut, with
the whole list below it. -/
theorem Cut.row (h : r.Cut above names items) {row : Row α β} (hrow : row ∈ items.rows above) :
    ∃ c name, row.chain = name :: c ∧ r.Chain above names (name :: c) ∧
      row.label = r.label c name ∧ (row.shut = false → row.below = r.below c name) := by
  induction h with
  | nil => cases hrow
  | leaf hlabel _ ih =>
    rcases List.mem_cons.mp hrow with rfl | hrow
    · exact ⟨_, _, rfl, .top List.mem_cons_self, hlabel.symm,
        fun _ => (r.below_of_leaf hlabel).symm⟩
    · obtain ⟨c, m, hrest, hchain, hdrawn⟩ := ih hrow
      exact ⟨c, m, hrest, hchain.mono (List.subset_cons_self _ _), hdrawn⟩
  | shut hlabel _ ih =>
    rcases List.mem_cons.mp hrow with rfl | hrow
    · exact ⟨_, _, rfl, .top List.mem_cons_self, hlabel.symm, fun hopen => by cases hopen⟩
    · obtain ⟨c, m, hrest, hchain, hdrawn⟩ := ih hrow
      exact ⟨c, m, hrest, hchain.mono (List.subset_cons_self _ _), hdrawn⟩
  | unfolded hlabel hbelow _ ihbelow ihrest =>
    rcases List.mem_cons.mp hrow with rfl | hrow
    · exact ⟨_, _, rfl, .top List.mem_cons_self, hlabel.symm, fun _ => hbelow.names_eq⟩
    rcases List.mem_append.mp hrow with hrow | hrow
    · obtain ⟨c, m, hin, hchain, hdrawn⟩ := ihbelow hrow
      exact ⟨c, m, hin, hchain.under List.mem_cons_self, hdrawn⟩
    · obtain ⟨c, m, hrest, hchain, hdrawn⟩ := ihrest hrow
      exact ⟨c, m, hrest, hchain.mono (List.subset_cons_self _ _), hdrawn⟩

/-- Each chain of the whole tree is drawn as far down as an item that is shut. -/
theorem Cut.chain_drawn (h : r.Cut above names items) (hc : r.Chain above names c) :
    ∃ row ∈ items.rows above, row.chain <:+ c ∧ (row.chain = c ∨ row.shut) := by
  induction h generalizing c with
  | nil =>
    obtain ⟨name, hname, -⟩ := hc.split
    cases hname
  | leaf hlabel _ ih =>
    rcases hc.split_cons with rfl | hchain | hchain
    · exact ⟨_, List.mem_cons_self, List.suffix_rfl, .inl rfl⟩
    · rw [r.below_of_leaf hlabel] at hchain
      obtain ⟨m, hm, -⟩ := hchain.split
      cases hm
    · obtain ⟨row, hrow, hdrawn⟩ := ih hchain
      exact ⟨row, List.mem_cons_of_mem _ hrow, hdrawn⟩
  | shut hlabel _ ih =>
    rcases hc.split_cons with rfl | hchain | hchain
    · exact ⟨_, List.mem_cons_self, List.suffix_rfl, .inl rfl⟩
    · exact ⟨_, List.mem_cons_self, hchain.suffix, .inr rfl⟩
    · obtain ⟨row, hrow, hdrawn⟩ := ih hchain
      exact ⟨row, List.mem_cons_of_mem _ hrow, hdrawn⟩
  | unfolded hlabel _ _ ihbelow ihrest =>
    rcases hc.split_cons with rfl | hchain | hchain
    · exact ⟨_, List.mem_cons_self, List.suffix_rfl, .inl rfl⟩
    · obtain ⟨row, hrow, hdrawn⟩ := ihbelow hchain
      exact ⟨row, List.mem_cons_of_mem _ (List.mem_append_left _ hrow), hdrawn⟩
    · obtain ⟨row, hrow, hdrawn⟩ := ihrest hchain
      exact ⟨row, List.mem_cons_of_mem _ (List.mem_append_right _ hrow), hdrawn⟩

/-! ## The whole tree -/

/-- Two drawings with nothing shut are the same. -/
theorem Cut.eq_of_whole (h : r.Cut above names items) (h' : r.Cut above names items')
    (hwhole : items.Whole) (hwhole' : items'.Whole) : items = items' := by
  induction h generalizing items' with
  | nil =>
    cases h'
    rfl
  | leaf hlabel _ ih =>
    cases h' with
    | leaf _ hrest => rw [ih hrest hwhole hwhole']
    | shut hother _ | unfolded hother _ _ => simp [hlabel] at hother
  | shut _ _ _ =>
    rw [Whole, shuts] at hwhole
    simp at hwhole
  | unfolded hlabel _ _ ihbelow ihrest =>
    cases h' with
    | leaf hother _ => simp [hlabel] at hother
    | shut _ _ =>
      rw [Whole, shuts] at hwhole'
      simp at hwhole'
    | unfolded hother hbelow hrest =>
      simp only [Whole, shuts, Bool.false_eq_true, if_false, Nat.zero_add,
        Nat.add_eq_zero_iff] at hwhole hwhole'
      rw [Option.some_inj.mp (hlabel.symm.trans hother), ihbelow hbelow hwhole.1 hwhole'.1,
        ihrest hrest hwhole.2 hwhole'.2]

/-- The items that are open, or shut, in a drawing are open in the whole tree. -/
theorem Cut.opened_add_shuts_le (h : r.Cut above names items) (h' : r.Cut above names items')
    (hwhole : items'.Whole) : items.opened + items.shuts ≤ items'.opened := by
  induction h generalizing items' with
  | nil => exact Nat.zero_le _
  | leaf hlabel _ ih =>
    cases h' with
    | leaf _ hrest =>
      simp only [opened, shuts]
      exact ih hrest hwhole
    | shut hother _ | unfolded hother _ _ => simp [hlabel] at hother
  | shut hlabel _ ih =>
    cases h' with
    | leaf hother _ => simp [hlabel] at hother
    | shut _ _ =>
      rw [Whole, shuts] at hwhole
      simp at hwhole
    | unfolded _ _ hrest =>
      simp only [Whole, shuts, Nat.add_eq_zero_iff] at hwhole
      have hle := ih hrest hwhole.2
      simp only [opened, shuts, if_true, Bool.false_eq_true, if_false]
      omega
  | unfolded hlabel _ _ ihbelow ihrest =>
    cases h' with
    | leaf hother _ => simp [hlabel] at hother
    | shut _ _ =>
      rw [Whole, shuts] at hwhole
      simp at hwhole
    | unfolded _ hbelow hrest =>
      simp only [Whole, shuts, Nat.add_eq_zero_iff] at hwhole
      have hle := ihrest hrest hwhole.2
      have hle' := ihbelow hbelow hwhole.1.2
      simp only [opened, shuts, Bool.false_eq_true, if_false]
      omega

theorem exists_whole_of (hbelow : ∀ name ∈ names, r.label above name ≠ none →
    ∃ items, r.Cut (name :: above) (r.below above name) items ∧ items.Whole) :
    ∃ items, r.Cut above names items ∧ items.Whole := by
  induction names with
  | nil => exact ⟨nil, .nil, rfl⟩
  | cons name names ih =>
    obtain ⟨rest, hrest, hwhole⟩ := ih fun m hm => hbelow m (List.mem_cons_of_mem name hm)
    cases hlabel : r.label above name with
    | none => exact ⟨_, .leaf hlabel hrest, hwhole⟩
    | some label =>
      obtain ⟨below, hcut, hwhole'⟩ := hbelow name List.mem_cons_self (by simp [hlabel])
      exact ⟨_, .unfolded hlabel hcut hrest, by simpa [Whole, shuts] using ⟨hwhole', hwhole⟩⟩

/-- There is a whole tree when a rank of the items with something below them decreases. -/
theorem exists_whole {rank : List α → α → Nat}
    (hrank : ∀ c name, ∀ m ∈ r.below c name, r.label (name :: c) m ≠ none →
      rank (name :: c) m < rank c name) (above names : List α) :
    ∃ items, r.Cut above names items ∧ items.Whole := by
  have hbounded : ∀ n above names,
      (∀ name ∈ names, r.label above name ≠ none → rank above name < n) →
        ∃ items, r.Cut above names items ∧ items.Whole := by
    intro n
    induction n with
    | zero => exact fun above names h => exists_whole_of fun name hname hlabel =>
        absurd (h name hname hlabel) (Nat.not_lt_zero _)
    | succ n ih =>
      refine fun above names h => exists_whole_of fun name hname hlabel => ih _ _ fun m hm hm' => ?_
      have hless := hrank above name m hm hm'
      have hle := h name hname hlabel
      omega
  exact exists_whole_of fun name _ _ => hbounded _ _ _ (hrank above name)

/-! ## Opening -/

theorem opened_draw (r : Rule α β) (above names : List α) : (r.draw above names).opened = 0 := by
  induction names with
  | nil => rfl
  | cons name names ih =>
    rw [draw, List.foldr_cons, item]
    split
    · exact ih
    · have hrest : (names.foldr (r.item above) nil).opened = 0 := ih
      simp [opened, hrest]

theorem openFirst_eq_none (expand : List α → α → Items α β) :
    openFirst expand above items = none ↔ items.Whole := by
  induction items generalizing above with
  | nil => simp [openFirst, Whole, shuts]
  | leaf name rest ih => simpa [openFirst, Whole, shuts] using ih
  | node name label shut below rest ihbelow ihrest =>
    cases shut with
    | true => simp [openFirst, Whole, shuts]
    | false =>
      cases hbelow : openFirst expand (name :: above) below with
      | some below' =>
        have hleft : below.shuts ≠ 0 := fun h => by simp [ihbelow.mpr h] at hbelow
        simp [openFirst, hbelow, Whole, shuts, hleft]
      | none =>
        have hwhole : below.shuts = 0 := ihbelow.mp hbelow
        simpa [openFirst, hbelow, Whole, shuts, hwhole] using ihrest

/-- The first shut item is opened, and no other. -/
theorem Cut.of_openFirst (h : r.Cut above names items)
    (hopen : openFirst r.expand above items = some items') :
    r.Cut above names items' ∧ items'.opened = items.opened + 1 := by
  induction h generalizing items' with
  | nil => cases hopen
  | leaf hlabel _ ih =>
    obtain ⟨rest, hrest, rfl⟩ := Option.map_eq_some_iff.mp hopen
    obtain ⟨hcut, hcount⟩ := ih hrest
    exact ⟨.leaf hlabel hcut, hcount⟩
  | @shut above names name label rest hlabel hrest _ =>
    cases hopen
    refine ⟨.unfolded hlabel (r.cut_draw _ _) hrest, ?_⟩
    simp only [opened, expand, r.opened_draw, if_true, Bool.false_eq_true, if_false]
    omega
  | @unfolded above names name label below rest hlabel hbelow hrest ihbelow ihrest =>
    rw [openFirst] at hopen
    split at hopen
    · rename_i below' hsome
      cases hopen
      obtain ⟨hcut, hcount⟩ := ihbelow hsome
      refine ⟨.unfolded hlabel hcut hrest, ?_⟩
      simp only [opened, hcount]
      omega
    · obtain ⟨rest', hsome, rfl⟩ := Option.map_eq_some_iff.mp hopen
      obtain ⟨hcut, hcount⟩ := ihrest hsome
      refine ⟨.unfolded hlabel hbelow hcut, ?_⟩
      simp only [opened, hcount]
      omega

/-- Wherever an item is opened, the drawing is still a cut of the whole tree. -/
theorem Cut.openAt (h : r.Cut above names items) (is : List Nat) :
    r.Cut above names (items.openAt r.expand above is) := by
  induction h generalizing is with
  | nil => cases is <;> exact .nil
  | leaf hlabel hrest ih =>
    match is with
    | [] | 0 :: _ => exact .leaf hlabel hrest
    | (i + 1) :: is => exact .leaf hlabel (ih (i :: is))
  | shut hlabel hrest ih =>
    match is with
    | [] => exact .shut hlabel hrest
    | [0] => exact .unfolded hlabel (r.cut_draw _ _) hrest
    | 0 :: i :: is => exact .shut hlabel hrest
    | (i + 1) :: is => exact .shut hlabel (ih (i :: is))
  | @unfolded above names name label below rest hlabel hbelow hrest ihbelow ihrest =>
    match is with
    | [] => exact .unfolded hlabel hbelow hrest
    | [0] =>
      refine .unfolded hlabel ?_ hrest
      cases hopen : openFirst r.expand (name :: above) below with
      | none => exact hbelow
      | some below' => exact (hbelow.of_openFirst hopen).1
    | 0 :: i :: is => exact .unfolded hlabel (ihbelow (i :: is)) hrest
    | (i + 1) :: is => exact .unfolded hlabel hbelow (ihrest (i :: is))

end Rule

end XfceLinux.Lib.Unfold
