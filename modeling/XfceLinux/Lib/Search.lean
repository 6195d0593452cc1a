import Mathlib

/-!
# Stable sorting and binary search

`sortOn` is a stable sort by a key. `bsearch` halves the range of indices and stops at the
first probe that compares equal. Among equal keys its answer depends on the length of the
list and on the place of the block alone: `firstProbe` is that place in the block, and
`bsearch_sortOn` reads the answer off the unsorted list.
-/

namespace XfceLinux.Lib.Search

/-! ## Halving a range -/

/-- Search `[l, u)` for an index of side `eq`. The searched key stands before an index of
side `lt` and behind one of side `gt`. -/
def bisectFrom (side : Nat → Ordering) : Nat → Nat → Nat → Option Nat
  | 0, _, _ => none
  | fuel + 1, l, u =>
    if l < u then
      let i := (l + u) / 2
      match side i with
      | .lt => bisectFrom side fuel l i
      | .gt => bisectFrom side fuel (i + 1) u
      | .eq => some i
    else none

/-- Every probe shortens the range, so that the length is fuel enough. -/
def bisect (side : Nat → Ordering) (n : Nat) : Option Nat := bisectFrom side n 0 n

theorem bisectFrom_some {side : Nat → Ordering} {fuel l u i : Nat}
    (h : bisectFrom side fuel l u = some i) : l ≤ i ∧ i < u ∧ side i = .eq := by
  induction fuel generalizing l u with
  | zero => cases h
  | succ fuel ih =>
    rw [bisectFrom] at h
    split at h
    · dsimp only at h
      split at h
      · obtain ⟨hl, hu, hi⟩ := ih h
        exact ⟨hl, by omega, hi⟩
      · obtain ⟨hl, hu, hi⟩ := ih h
        exact ⟨by omega, hu, hi⟩
      · rename_i hside
        cases h
        exact ⟨by omega, by omega, hside⟩
    · cases h

/-- An index that the sides point to from everywhere stays in the range until some index of
side `eq` is probed. -/
theorem bisectFrom_isSome {side : Nat → Ordering} {fuel l u i : Nat} (hroom : u - l ≤ fuel)
    (hl : l ≤ i) (hu : i < u)
    (hlt : ∀ j, l ≤ j → j < u → side j = .lt → i < j)
    (hgt : ∀ j, l ≤ j → j < u → side j = .gt → j < i) :
    (bisectFrom side fuel l u).isSome := by
  induction fuel generalizing l u with
  | zero => omega
  | succ fuel ih =>
    rw [bisectFrom, if_pos (by omega)]
    dsimp only
    split
    · rename_i hside
      have := hlt _ (by omega) (by omega) hside
      exact ih (by omega) hl this (fun j hj hju => hlt j hj (by omega))
        fun j hj hju => hgt j hj (by omega)
    · rename_i hside
      have := hgt _ (by omega) (by omega) hside
      exact ih (by omega) this hu (fun j hj hju => hlt j (by omega) hju)
        fun j hj hju => hgt j (by omega) hju
    · rfl

/-! ## The first probe in a block -/

/-- The sides of the indices when `k` equal ones follow `a` smaller ones. -/
def blockSide (a k i : Nat) : Ordering := if i < a then .gt else if i < a + k then .eq else .lt

theorem blockSide_eq_eq {a k i : Nat} : blockSide a k i = .eq ↔ a ≤ i ∧ i < a + k := by
  unfold blockSide
  split_ifs <;> simp <;> omega

/-- The place in the block `[a, a + k)` that halving the range `[0, n)` probes first. -/
def firstProbe (a k n : Nat) : Option Nat := (bisect (blockSide a k) n).map (· - a)

theorem firstProbe_lt {a k n m : Nat} (h : firstProbe a k n = some m) : m < k := by
  obtain ⟨i, hi, rfl⟩ := Option.map_eq_some_iff.mp h
  have := blockSide_eq_eq.mp (bisectFrom_some hi).2.2
  omega

theorem firstProbe_isSome {a k n : Nat} (hk : 0 < k) (hn : a + k ≤ n) :
    (firstProbe a k n).isSome := by
  have hfound : (bisect (blockSide a k) n).isSome := by
    refine bisectFrom_isSome (i := a) (by omega) (by omega) (by omega) ?_ ?_
    all_goals
      intro j _ _ hj
      unfold blockSide at hj
      split_ifs at hj
      omega
  rw [firstProbe, Option.isSome_map]
  exact hfound

/-! ## Searching a list -/

section Bsearch

variable {α : Type*} {side : α → Ordering}

/-- The element at the first index probed that has side `eq`. -/
def bsearch (side : α → Ordering) (xs : List α) : Option α :=
  (bisect (fun i => xs[i]?.elim .lt side) xs.length).bind (xs[·]?)

theorem side_append {below equal above : List α} (hb : ∀ x ∈ below, side x = .gt)
    (he : ∀ x ∈ equal, side x = .eq) (ha : ∀ x ∈ above, side x = .lt) (i : Nat) :
    (below ++ equal ++ above)[i]?.elim .lt side = blockSide below.length equal.length i := by
  unfold blockSide
  split_ifs with hi hi'
  · rw [List.append_assoc, List.getElem?_append_left hi, List.getElem?_eq_getElem hi]
    exact hb _ (List.getElem_mem _)
  · rw [List.getElem?_append_left (by simpa using hi'), List.getElem?_append_right (by omega),
      List.getElem?_eq_getElem (by omega)]
    exact he _ (List.getElem_mem _)
  · rw [List.getElem?_append_right (by simpa using hi')]
    cases h : above[i - (below ++ equal).length]? with
    | none => rfl
    | some x => exact ha x (List.mem_of_getElem? h)

theorem bsearch_append {below equal above : List α} (hb : ∀ x ∈ below, side x = .gt)
    (he : ∀ x ∈ equal, side x = .eq) (ha : ∀ x ∈ above, side x = .lt) :
    bsearch side (below ++ equal ++ above) =
      (firstProbe below.length equal.length (below ++ equal ++ above).length).bind
        (equal[·]?) := by
  rw [bsearch, funext (side_append hb he ha), firstProbe]
  cases hi : bisect (blockSide below.length equal.length) (below ++ equal ++ above).length with
  | none => rfl
  | some i =>
    obtain ⟨hlo, hup⟩ := blockSide_eq_eq.mp (bisectFrom_some hi).2.2
    rw [Option.bind_some, Option.map_some, Option.bind_some,
      List.getElem?_append_left (by simpa using hup), List.getElem?_append_right hlo]

theorem of_bsearch {xs : List α} {x : α} (h : bsearch side xs = some x) :
    x ∈ xs ∧ side x = .eq := by
  obtain ⟨i, hi, hx⟩ := Option.bind_eq_some_iff.mp h
  refine ⟨List.mem_of_getElem? hx, ?_⟩
  have hside := (bisectFrom_some hi).2.2
  rw [hx] at hside
  exact hside

end Bsearch

/-! ## Searching behind a stable sort -/

section Sorting

variable {α κ : Type*} [Ord κ]

/-- A stable sort by a key. -/
def sortOn (key : α → κ) (xs : List α) : List α :=
  xs.insertionSort fun x y => (compare (key x) (key y)).isLE

/-- The elements whose key lies on one side of `k`. -/
def onSide (key : α → κ) (k : κ) (o : Ordering) (xs : List α) : List α :=
  xs.filter fun x => compare k (key x) = o

theorem perm_sortOn (key : α → κ) (xs : List α) : (sortOn key xs).Perm xs :=
  List.perm_insertionSort _ xs

theorem side_of_mem_onSide {key : α → κ} {k : κ} {o : Ordering} {xs : List α} {x : α}
    (h : x ∈ onSide key k o xs) : compare k (key x) = o := by
  simpa [onSide] using (List.mem_filter.mp h).2

variable [Std.TransOrd κ]

instance total_isLE (key : α → κ) :
    Std.Total fun x y : α => ((compare (key x) (key y)).isLE : Prop) := by
  refine ⟨fun x y => ?_⟩
  cases h : compare (key x) (key y)
  · exact .inl rfl
  · exact .inl rfl
  · exact .inr (by rw [Std.OrientedCmp.lt_of_gt h]; rfl)

instance trans_isLE (key : α → κ) :
    IsTrans α fun x y => ((compare (key x) (key y)).isLE : Prop) :=
  ⟨fun _ _ _ => Std.TransCmp.isLE_trans⟩

theorem pairwise_sortOn (key : α → κ) (xs : List α) :
    (sortOn key xs).Pairwise fun x y => (compare (key x) (key y)).isLE :=
  List.pairwise_insertionSort _ xs

/-- A sorted list is what stands before the key, at it and behind it. -/
theorem onSide_append {key : α → κ} {xs : List α}
    (h : xs.Pairwise fun x y => (compare (key x) (key y)).isLE) (k : κ) :
    onSide key k .gt xs ++ onSide key k .eq xs ++ onSide key k .lt xs = xs := by
  induction xs with
  | nil => rfl
  | cons x xs ih =>
    obtain ⟨hx, hxs⟩ := List.pairwise_cons.mp h
    have ih := ih hxs
    cases hk : compare k (key x) with
    | gt => simpa [onSide, hk] using ih
    | eq =>
      have hnil : onSide key k .gt xs = [] := by
        refine List.filter_eq_nil_iff.mpr fun y hy => ?_
        have hle := hx y hy
        rw [← Std.TransCmp.congr_left hk] at hle
        cases hky : compare k (key y) <;> simp_all
      rw [hnil, List.nil_append] at ih
      have hnil' : onSide key k .gt (x :: xs) = [] := by
        rw [← hnil]
        simp [onSide, hk]
      rw [hnil', List.nil_append]
      simpa [onSide, hk] using ih
    | lt =>
      have hall : ∀ y ∈ xs, compare k (key y) = .lt := fun y hy =>
        Std.TransCmp.lt_of_lt_of_isLE hk (hx y hy)
      have hlt : ∀ y ∈ x :: xs, compare k (key y) = .lt := by
        simpa [hk] using hall
      have hnone : ∀ o, o ≠ .lt → onSide key k o (x :: xs) = [] := by
        intro o ho
        refine List.filter_eq_nil_iff.mpr fun y hy => ?_
        rw [hlt y hy]
        simpa using ho.symm
      rw [hnone .gt (by decide), hnone .eq (by decide)]
      exact List.filter_eq_self.mpr fun y hy => by simp [hlt y hy]

/-- The search of a sorted list finds a key that is there. -/
theorem bsearch_isSome {key : α → κ} {k : κ} {xs : List α}
    (h : xs.Pairwise fun x y => (compare (key x) (key y)).isLE)
    (hk : ∃ x ∈ xs, compare k (key x) = .eq) :
    (bsearch (fun x => compare k (key x)) xs).isSome := by
  obtain ⟨x, hx, hxk⟩ := hk
  have hmem : x ∈ onSide key k .eq xs := List.mem_filter.mpr ⟨hx, by simpa using hxk⟩
  have hpos : 0 < (onSide key k .eq xs).length := List.length_pos_of_mem hmem
  have happend := onSide_append h k
  have hlen := congrArg List.length happend
  rw [List.length_append, List.length_append] at hlen
  obtain ⟨m, hm⟩ := Option.isSome_iff_exists.mp
    (firstProbe_isSome hpos (show (onSide key k .gt xs).length + _ ≤ xs.length by omega))
  rw [← happend, bsearch_append (fun _ => side_of_mem_onSide) (fun _ => side_of_mem_onSide)
    (fun _ => side_of_mem_onSide), happend, hm, Option.bind_some,
    List.getElem?_eq_getElem (firstProbe_lt hm)]
  rfl

/-- The sort keeps elements of one key in order. -/
theorem onSide_eq_sortOn (key : α → κ) (k : κ) (xs : List α) :
    onSide key k .eq (sortOn key xs) = onSide key k .eq xs := by
  have hsub : (onSide key k .eq xs).Sublist (sortOn key xs) := by
    refine List.sublist_insertionSort ?_ List.filter_sublist
    refine List.pairwise_of_forall_mem_list fun x hx y hy => ?_
    have hxk := Std.OrientedCmp.eq_symm (side_of_mem_onSide hx)
    rw [Std.TransCmp.eq_trans hxk (side_of_mem_onSide hy)]
    rfl
  have hsub' := hsub.filter fun x => compare k (key x) = .eq
  rw [onSide, List.filter_filter] at hsub'
  simp only [Bool.and_self] at hsub'
  exact (hsub'.eq_of_length (((perm_sortOn key xs).filter _).length_eq.symm)).symm

/-- The last element that passes has the greatest key among those that pass. -/
theorem isLE_of_getLast? {key : α → κ} {xs : List α} {p : α → Bool} {x last : α} (hx : x ∈ xs)
    (hp : p x) (hlast : ((sortOn key xs).filter p).getLast? = some last) :
    (compare (key x) (key last)).isLE := by
  have hsorted := (pairwise_sortOn key xs).filter p
  have hmem : x ∈ (sortOn key xs).filter p :=
    List.mem_filter.mpr ⟨(perm_sortOn key xs).mem_iff.mpr hx, hp⟩
  obtain ⟨before, hbefore⟩ := List.getLast?_eq_some_iff.mp hlast
  rw [hbefore] at hsorted hmem
  rcases List.mem_append.mp hmem with hmem | hmem
  · exact (List.pairwise_append.mp hsorted).2.2 x hmem last (List.mem_singleton_self last)
  · rw [List.mem_singleton.mp hmem, Std.ReflOrd.compare_self]
    rfl

/-- Sorting the keys is sorting by the key. -/
theorem sortOn_id_of_perm [Std.LawfulEqOrd κ] {key : α → κ} {ks : List κ} {xs : List α}
    (h : ks.Perm (xs.map key)) : sortOn id ks = (sortOn key xs).map key := by
  have hperm : (sortOn id ks).Perm ((sortOn key xs).map key) :=
    ((perm_sortOn id ks).trans h).trans ((perm_sortOn key xs).map key).symm
  have hsorted : ((sortOn key xs).map key).Pairwise fun x y => (compare x y).isLE :=
    List.pairwise_map.mpr (pairwise_sortOn key xs)
  refine hperm.eq_of_pairwise (fun x y _ _ hxy hyx => ?_) (pairwise_sortOn id ks) hsorted
  exact Std.LawfulEqOrd.eq_of_compare (Std.OrientedCmp.isLE_antisymm hxy hyx)

theorem compare_append_left {α : Type*} [Ord α] [Std.ReflOrd α] (p x y : List α) :
    compare (p ++ x) (p ++ y) = compare x y := by
  induction p with
  | nil => rfl
  | cons c p ih =>
    rw [List.cons_append, List.cons_append, List.compare_cons_cons, Std.ReflOrd.compare_self, ih]
    rfl

/-- A separator below all characters leaves the order of what stands before it. -/
theorem isLE_of_append_sep {α : Type*} [Ord α] {sep : α} {x y s t : List α}
    (hx : ∀ c ∈ x, compare c sep = .gt) (h : (compare (x ++ sep :: s) (y ++ sep :: t)).isLE) :
    (compare x y).isLE := by
  induction x generalizing y with
  | nil =>
    cases y with
    | nil => rfl
    | cons d y => rfl
  | cons c x ih =>
    cases y with
    | nil =>
      rw [List.cons_append, List.nil_append, List.compare_cons_cons, hx c List.mem_cons_self] at h
      cases h
    | cons d y =>
      rw [List.cons_append, List.cons_append, List.compare_cons_cons] at h
      rw [List.compare_cons_cons]
      cases hcd : compare c d with
      | lt => rfl
      | eq =>
        rw [hcd] at h
        exact ih (fun e he => hx e (List.mem_cons_of_mem c he)) h
      | gt =>
        rw [hcd] at h
        cases h

/-- **Search behind a sort.** The search for `k` answers with the element of key `k` that
the first probe of their block falls on, counted in the order of the unsorted list. -/
theorem bsearch_sortOn (key : α → κ) (k : κ) (xs : List α) :
    bsearch (fun x => compare k (key x)) (sortOn key xs) =
      (firstProbe (onSide key k .gt xs).length (onSide key k .eq xs).length xs.length).bind
        ((onSide key k .eq xs)[·]?) := by
  have hperm := perm_sortOn key xs
  have hlen : (onSide key k .gt (sortOn key xs)).length = (onSide key k .gt xs).length :=
    (hperm.filter _).length_eq
  conv_lhs => rw [← onSide_append (pairwise_sortOn key xs) k]
  rw [bsearch_append (fun _ => side_of_mem_onSide) (fun _ => side_of_mem_onSide)
      (fun _ => side_of_mem_onSide),
    onSide_append (pairwise_sortOn key xs) k, hperm.length_eq, hlen, onSide_eq_sortOn]

end Sorting

end XfceLinux.Lib.Search
