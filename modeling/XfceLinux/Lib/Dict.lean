import Mathlib

/-!
# Dictionaries in insertion order, and writes to list elements

A `dict` is the list of its items. Overwriting a key keeps its place, a new key is
appended. `modifyFirst` is a loop that updates the first element it looks for and breaks. A
run of writes leaves the last one in every cell (`foldlM_last_write`).
-/

namespace XfceLinux.Lib.Dict

variable {α β : Type*} [DecidableEq α]

/-- `d.get(k)` -/
def get? (d : List (α × β)) (k : α) : Option β :=
  (d.find? fun e => e.1 = k).map (·.2)

/-- `d[k] = v` -/
def set (d : List (α × β)) (k : α) (v : β) : List (α × β) :=
  match d with
  | [] => [(k, v)]
  | e :: d => if e.1 = k then (k, v) :: d else e :: set d k v

/-- `d.pop(k, None)`, without the value returned -/
def pop (d : List (α × β)) (k : α) : List (α × β) := d.filter fun e => e.1 ≠ k

/-- `d.values()` -/
def values (d : List (α × β)) : List β := d.map (·.2)

theorem get?_cons (e : α × β) (d : List (α × β)) (k : α) :
    get? (e :: d) k = if e.1 = k then some e.2 else get? d k := by
  by_cases h : e.1 = k <;> simp [get?, h]

theorem get?_set (d : List (α × β)) (k l : α) (v : β) :
    get? (set d k v) l = if k = l then some v else get? d l := by
  induction d with
  | nil => exact get?_cons (k, v) [] l
  | cons e d ih =>
    rw [set]
    split
    · rename_i he
      rw [get?_cons, get?_cons, he]
      split <;> rfl
    · rename_i he
      rw [get?_cons, get?_cons, ih]
      by_cases hl : e.1 = l
      · have hk : k ≠ l := fun hk => he (hl.trans hk.symm)
        simp [hl, hk]
      · simp [hl]

theorem set_of_notMem {d : List (α × β)} {k : α} (h : k ∉ d.map (·.1)) (v : β) :
    set d k v = d ++ [(k, v)] := by
  induction d with
  | nil => rfl
  | cons e d ih =>
    rw [List.map_cons, List.mem_cons, not_or] at h
    rw [set, if_neg (Ne.symm h.1), ih h.2, List.cons_append]

/-- New keys are appended in order. -/
theorem foldl_set {d ms : List (α × β)} (h : (d.map (·.1) ++ ms.map (·.1)).Nodup) :
    ms.foldl (fun d m => set d m.1 m.2) d = d ++ ms := by
  induction ms generalizing d with
  | nil => simp
  | cons m ms ih =>
    have hnew : m.1 ∉ d.map (·.1) := fun hmem =>
      (List.nodup_append.mp h).2.2 _ hmem _ List.mem_cons_self rfl
    rw [List.foldl_cons, set_of_notMem hnew, ih, List.append_assoc]
    · rfl
    · simpa using h

theorem get?_pop (d : List (α × β)) (k l : α) :
    get? (pop d k) l = if k = l then none else get? d l := by
  induction d with
  | nil => simp [pop, get?]
  | cons e d ih =>
    have hpop : pop (e :: d) k = if e.1 = k then pop d k else e :: pop d k := by
      by_cases he : e.1 = k <;> simp [pop, he]
    rw [hpop]
    split
    · rename_i he
      rw [ih, get?_cons, he]
      split <;> rfl
    · rename_i he
      rw [get?_cons, get?_cons, ih]
      by_cases hl : e.1 = l
      · have hk : k ≠ l := fun hk => he (hl.trans hk.symm)
        simp [hl, hk]
      · simp [hl]

theorem isSome_get? {d : List (α × β)} {k : α} : (get? d k).isSome ↔ k ∈ d.map (·.1) := by
  simp [get?, List.mem_map]

theorem mem_iff_get? {d : List (α × β)} (h : (d.map (·.1)).Nodup) (k : α) (v : β) :
    (k, v) ∈ d ↔ get? d k = some v := by
  induction d with
  | nil => simp [get?]
  | cons e d ih =>
    rw [List.map_cons, List.nodup_cons] at h
    rw [get?_cons, List.mem_cons, ih h.2]
    by_cases he : e.1 = k
    · have hnone : get? d k = none := by
        rw [← Option.not_isSome_iff_eq_none, isSome_get?, ← he]
        exact h.1
      rw [if_pos he, hnone, Option.some_inj]
      refine ⟨fun hkv => ?_, fun hv => .inl ?_⟩
      · exact congrArg (·.2) (hkv.resolve_right (by simp)).symm
      · rw [← he, ← hv]
    · rw [if_neg he]
      refine or_iff_right fun hkv => he ?_
      rw [← hkv]

theorem nodup_set {d : List (α × β)} (h : (d.map (·.1)).Nodup) (k : α) (v : β) :
    ((set d k v).map (·.1)).Nodup := by
  by_cases hk : k ∈ d.map (·.1)
  · have hkeys : (set d k v).map (·.1) = d.map (·.1) := by
      clear h
      induction d with
      | nil => cases hk
      | cons e d ih =>
        rw [set]
        split
        · rename_i he
          rw [List.map_cons, List.map_cons, he]
        · rename_i he
          have hmem := (List.mem_cons.mp hk).resolve_left (Ne.symm he)
          rw [List.map_cons, List.map_cons, ih hmem]
    rw [hkeys]
    exact h
  · rw [set_of_notMem hk, List.map_append, List.map_singleton, List.nodup_append]
    refine ⟨h, List.nodup_singleton k, fun a ha b hb hab => hk ?_⟩
    obtain rfl : a = k := hab.trans (List.mem_singleton.mp hb)
    exact ha

theorem length_set_le (d : List (α × β)) (k : α) (v : β) :
    (set d k v).length ≤ d.length + 1 := by
  induction d with
  | nil => exact le_rfl
  | cons e d ih =>
    rw [set]
    split
    · simp
    · simpa using ih

theorem length_pop_le (d : List (α × β)) (k : α) : (pop d k).length ≤ d.length :=
  List.length_filter_le _ _

/-- A key that is there leaves with at least one item. -/
theorem length_pop_lt {d : List (α × β)} {k : α} (h : (get? d k).isSome) :
    (pop d k).length < d.length := by
  obtain ⟨e, he, hk⟩ := List.mem_map.mp (isSome_get?.mp h)
  exact List.length_filter_lt_length_iff_exists.mpr ⟨e, he, by simpa using hk⟩

omit [DecidableEq α] in
/-- A new value for one of the keys, which are different. -/
theorem mem_replace {before after : List (α × β)} {k : α} {v w : β}
    (h : ((before ++ (k, v) :: after).map (·.1)).Nodup) (q : α × β) :
    q ∈ before ++ (k, w) :: after ↔
      q = (k, w) ∨ q ∈ before ++ (k, v) :: after ∧ q.1 ≠ k := by
  rw [List.map_append, List.map_cons, List.nodup_append, List.nodup_cons] at h
  obtain ⟨-, ⟨hafter, -⟩, hbefore⟩ := h
  simp only [List.mem_append, List.mem_cons]
  constructor
  · rintro (hq | rfl | hq)
    · exact .inr ⟨.inl hq, hbefore _ (List.mem_map_of_mem hq) _ List.mem_cons_self⟩
    · exact .inl rfl
    · refine .inr ⟨.inr (.inr hq), ?_⟩
      intro hk
      exact hafter (List.mem_map.mpr ⟨q, hq, hk⟩)
  · rintro (rfl | ⟨hq | rfl | hq, hk⟩)
    · exact .inr (.inl rfl)
    · exact .inl hq
    · exact absurd rfl hk
    · exact .inr (.inr hq)

/-- Apply `g` to every value, in place. -/
def mapValues (g : β → β) (d : List (α × β)) : List (α × β) := d.map fun e => (e.1, g e.2)

theorem get?_mapValues (g : β → β) (d : List (α × β)) (k : α) :
    get? (mapValues g d) k = (get? d k).map g := by
  simp only [get?, mapValues, List.find?_map, Option.map_map]
  rfl

theorem set_mapValues (g : β → β) (d : List (α × β)) (k : α) (v : β) :
    set (mapValues g d) k (g v) = mapValues g (set d k v) := by
  induction d with
  | nil => rfl
  | cons e d ih =>
    simp only [mapValues, List.map_cons, set] at ih ⊢
    split
    · rfl
    · rw [ih]
      rfl

theorem pop_mapValues (g : β → β) (d : List (α × β)) (k : α) :
    pop (mapValues g d) k = mapValues g (pop d k) := by
  simp only [pop, mapValues, List.filter_map]
  rfl

/-- Apply `g` to the first element that satisfies `p`. -/
def modifyFirst {γ : Type*} (p : γ → Bool) (g : γ → γ) : List γ → List γ
  | [] => []
  | a :: l => if p a then g a :: l else a :: modifyFirst p g l

section ModifyFirst

variable {γ δ : Type*} {p : γ → Bool} {g : γ → γ}

theorem modifyFirst_append {before after : List γ} {a : γ} (hbefore : ∀ b ∈ before, p b = false)
    (ha : p a) : modifyFirst p g (before ++ a :: after) = before ++ g a :: after := by
  induction before with
  | nil => rw [List.nil_append, modifyFirst, if_pos ha, List.nil_append]
  | cons b before ih =>
    have hb := hbefore b List.mem_cons_self
    rw [List.cons_append, modifyFirst, hb, if_neg Bool.false_ne_true,
      ih fun c hc => hbefore c (List.mem_cons_of_mem b hc), List.cons_append]

theorem modifyFirst_map {f : δ → γ} {q : δ → Bool} {k : δ → δ} (hp : ∀ a, p (f a) = q a)
    (hg : ∀ a, g (f a) = f (k a)) (l : List δ) :
    modifyFirst p g (l.map f) = (modifyFirst q k l).map f := by
  induction l with
  | nil => rfl
  | cons a l ih =>
    rw [List.map_cons, modifyFirst, modifyFirst, hp, ih, hg]
    split <;> rfl

theorem map_modifyFirst {f : γ → δ} (h : ∀ a, f (g a) = f a) (l : List γ) :
    (modifyFirst p g l).map f = l.map f := by
  induction l with
  | nil => rfl
  | cons a l ih =>
    rw [modifyFirst]
    split
    · simp [h]
    · simp [ih]

theorem mem_modifyFirst {l : List γ} {x : γ} (h : x ∈ modifyFirst p g l) :
    x ∈ l ∨ ∃ a ∈ l, p a ∧ x = g a := by
  induction l with
  | nil => exact .inl h
  | cons a l ih =>
    rw [modifyFirst] at h
    split at h
    · rename_i ha
      rcases List.mem_cons.mp h with rfl | h
      · exact .inr ⟨a, List.mem_cons_self, ha, rfl⟩
      · exact .inl (List.mem_cons_of_mem _ h)
    · rcases List.mem_cons.mp h with rfl | h
      · exact .inl List.mem_cons_self
      · rcases ih h with h | ⟨b, hb, hpb, rfl⟩
        · exact .inl (List.mem_cons_of_mem _ h)
        · exact .inr ⟨b, List.mem_cons_of_mem _ hb, hpb, rfl⟩

theorem mem_modifyFirst_of_mem {l : List γ} {a : γ} (h : a ∈ l) :
    a ∈ modifyFirst p g l ∨ p a ∧ g a ∈ modifyFirst p g l := by
  induction l with
  | nil => cases h
  | cons b l ih =>
    rw [modifyFirst]
    split
    · rename_i hb
      rcases List.mem_cons.mp h with rfl | h
      · exact .inr ⟨hb, List.mem_cons_self⟩
      · exact .inl (List.mem_cons_of_mem _ h)
    · rcases List.mem_cons.mp h with rfl | h
      · exact .inl List.mem_cons_self
      · rcases ih h with h | ⟨hpa, h⟩
        · exact .inl (List.mem_cons_of_mem _ h)
        · exact .inr ⟨hpa, List.mem_cons_of_mem _ h⟩

theorem pairwise_modifyFirst {R : γ → γ → Prop} {l : List γ} (h : l.Pairwise R)
    (hg : ∀ a ∈ l, p a → ∀ b ∈ l, R (g a) b ∧ R b (g a)) :
    (modifyFirst p g l).Pairwise R := by
  induction l with
  | nil => exact .nil
  | cons a l ih =>
    obtain ⟨ha, hl⟩ := List.pairwise_cons.mp h
    rw [modifyFirst]
    split
    · rename_i hpa
      exact .cons (fun b hb => (hg a List.mem_cons_self hpa b (List.mem_cons_of_mem _ hb)).1) hl
    · refine .cons (fun x hx => ?_) (ih hl fun b hb hpb c hc =>
        hg b (List.mem_cons_of_mem _ hb) hpb c (List.mem_cons_of_mem _ hc))
      rcases mem_modifyFirst hx with hx | ⟨b, hb, hpb, rfl⟩
      · exact ha x hx
      · exact (hg b (List.mem_cons_of_mem _ hb) hpb a List.mem_cons_self).2

end ModifyFirst

/-! ## The last write -/

section LastWrite

variable {σ γ δ κ : Type*} (read : σ → κ → Option δ) (writes : κ → γ → Bool) (value : κ → γ → δ)

/-- Steps that each write some cells leave in every cell what the last step that writes it
puts there. -/
theorem foldlM_last_write {step : σ → γ → Option σ} {xs : List γ}
    (h : ∀ x ∈ xs, ∀ s, ∃ s', step s x = some s' ∧
      ∀ k, read s' k = if writes k x then some (value k x) else read s k) (s : σ) :
    ∃ s', xs.foldlM step s = some s' ∧
      ∀ k, read s' k = ((xs.filter (writes k)).getLast?.map (value k)).or (read s k) := by
  induction xs using List.reverseRecOn with
  | nil => exact ⟨s, rfl, fun k => rfl⟩
  | append_singleton xs x ih =>
    obtain ⟨s₁, hrun, hread⟩ := ih fun y hy => h y (List.mem_append_left _ hy)
    obtain ⟨s₂, hstep, hwrite⟩ := h x (List.mem_append_right _ List.mem_cons_self) s₁
    refine ⟨s₂, ?_, fun k => ?_⟩
    · rw [List.foldlM_append, hrun]
      simp [hstep]
    · rw [hwrite, hread, List.filter_append]
      cases hk : writes k x <;> simp [hk]

theorem foldl_last_write {step : σ → γ → σ} {xs : List γ}
    (h : ∀ x ∈ xs, ∀ s k, read (step s x) k =
      if writes k x then some (value k x) else read s k) (s : σ) (k : κ) :
    read (xs.foldl step s) k =
      ((xs.filter (writes k)).getLast?.map (value k)).or (read s k) := by
  have hstep : ∀ x ∈ xs, ∀ s, ∃ s', some (step s x) = some s' ∧
      ∀ k, read s' k = if writes k x then some (value k x) else read s k :=
    fun x hx s => ⟨step s x, rfl, h x hx s⟩
  obtain ⟨s', hrun, hread⟩ := foldlM_last_write read writes value hstep s
  have hpure : xs.foldlM (fun s x => some (step s x)) s = some (xs.foldl step s) :=
    List.foldlM_pure
  obtain rfl : xs.foldl step s = s' := Option.some.inj (hpure.symm.trans hrun)
  exact hread k

end LastWrite

end XfceLinux.Lib.Dict
