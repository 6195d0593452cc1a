import Mathlib

/-!
# Loops over inputs

A loop takes one input after another and ends at the first step that says so, or when there
are no more inputs. `behind s as` is the state behind steps that take `as`, so that the step
with number `k` starts in `behind s (as.take k)`. The loop makes this step exactly when no
step before it ends the loop (`lt_length_states_iff`).
-/

namespace XfceLinux.Lib.Loop

variable {σ α : Type*} (step : σ → α → σ × Bool)

/-- The state behind steps that take `as`. -/
def behind (s : σ) (as : List α) : σ := as.foldl (fun s a => (step s a).1) s

/-- The states behind the steps that the loop makes. -/
def states : σ → List α → List σ
  | _, [] => []
  | s, a :: as => (step s a).1 :: if (step s a).2 then [] else states (step s a).1 as

/-- Whether a step ends the loop. -/
def ended : σ → List α → Bool
  | _, [] => false
  | s, a :: as => (step s a).2 || ended (step s a).1 as

/-- The step with number `k` says that the loop is to end. -/
def EndsAt (s : σ) (as : List α) (k : Nat) : Prop :=
  ∃ a, as[k]? = some a ∧ (step (behind step s (as.take k)) a).2 = true

variable {step} {s : σ} {as : List α} {k : Nat}

@[simp] theorem behind_nil : behind step s [] = s := rfl

@[simp] theorem behind_cons (a : α) :
    behind step s (a :: as) = behind step (step s a).1 as := rfl

@[simp] theorem behind_concat (a : α) :
    behind step s (as ++ [a]) = (step (behind step s as) a).1 :=
  List.foldl_concat ..

theorem behind_take_succ {a : α} (h : as[k]? = some a) :
    behind step s (as.take (k + 1)) = (step (behind step s (as.take k)) a).1 := by
  rw [List.take_add_one, h, Option.toList_some, behind_concat]

/-- There is one first step of a kind. -/
theorem first_unique {P : Nat → Prop} {m n : Nat} (hm : P m) (hmfirst : ∀ j < m, ¬ P j)
    (hn : P n) (hnfirst : ∀ j < n, ¬ P j) : m = n := by
  apply le_antisymm
  · exact not_lt.mp fun h => hmfirst n h hn
  · exact not_lt.mp fun h => hnfirst m h hm

/-- What holds at the start and is kept by every step holds behind any steps. -/
theorem behind_invariant {I : List α → σ → Prop} (h₀ : I [] s)
    (hStep : ∀ seen t a, I seen t → I (seen ++ [a]) (step t a).1) (as : List α) :
    I as (behind step s as) := by
  induction as using List.reverseRecOn with
  | nil => exact h₀
  | append_singleton as a ih =>
    rw [behind_concat]
    exact hStep as _ a ih

@[simp] theorem endsAt_cons_zero {a : α} :
    EndsAt step s (a :: as) 0 ↔ (step s a).2 = true := by
  simp [EndsAt]

@[simp] theorem endsAt_cons_succ {a : α} :
    EndsAt step s (a :: as) (k + 1) ↔ EndsAt step (step s a).1 as k := by
  simp [EndsAt]

theorem EndsAt.lt (h : EndsAt step s as k) : k < as.length := by
  obtain ⟨a, ha, -⟩ := h
  exact (List.getElem?_eq_some_iff.mp ha).1

/-- **The steps that are made**: those before which no step ends the loop. -/
theorem lt_length_states_iff :
    k < (states step s as).length ↔ k < as.length ∧ ∀ j < k, ¬ EndsAt step s as j := by
  induction as generalizing s k with
  | nil => simp [states]
  | cons a as ih =>
    rw [states, List.length_cons, List.length_cons]
    cases k with
    | zero => simp
    | succ k =>
      rw [Nat.forall_lt_succ_left]
      by_cases ha : (step s a).2 = true
      · simp [ha]
      · rw [if_neg ha, Nat.add_lt_add_iff_right, Nat.add_lt_add_iff_right, ih]
        simp [ha]

theorem getElem?_states {t : σ} (h : (states step s as)[k]? = some t) :
    t = behind step s (as.take (k + 1)) := by
  induction as generalizing s k with
  | nil => simp [states] at h
  | cons a as ih =>
    rw [states] at h
    cases k with
    | zero => simpa using h.symm
    | succ k =>
      rw [List.getElem?_cons_succ] at h
      split at h
      · simp at h
      · simpa using ih h

theorem ended_iff : ended step s as = true ↔ ∃ k, EndsAt step s as k := by
  induction as generalizing s with
  | nil => simp [ended, EndsAt]
  | cons a as ih =>
    rw [ended, Bool.or_eq_true, ih]
    constructor
    · rintro (ha | ⟨k, hk⟩)
      · exact ⟨0, endsAt_cons_zero.mpr ha⟩
      · exact ⟨k + 1, endsAt_cons_succ.mpr hk⟩
    · rintro ⟨k, hk⟩
      cases k with
      | zero => exact .inl (endsAt_cons_zero.mp hk)
      | succ k => exact .inr ⟨k, endsAt_cons_succ.mp hk⟩

theorem length_states_le : (states step s as).length ≤ as.length := by
  by_contra hlt
  exact absurd (lt_length_states_iff.mp (not_le.mp hlt)).1 (lt_irrefl _)

/-- **Where the loop ends**: behind the first step that says so. -/
theorem ended_at_iff :
    ended step s as = true ∧ (states step s as).length = k + 1 ↔
      EndsAt step s as k ∧ ∀ j < k, ¬ EndsAt step s as j := by
  have hFirst : ∀ k, EndsAt step s as k → (∀ j < k, ¬ EndsAt step s as j) →
      (states step s as).length = k + 1 := by
    intro k hk hfirst
    have hmade : k < (states step s as).length := lt_length_states_iff.mpr ⟨hk.lt, hfirst⟩
    have hlast : ¬ k + 1 < (states step s as).length := by
      intro hnext
      exact (lt_length_states_iff.mp hnext).2 k (Nat.lt_succ_self k) hk
    omega
  constructor
  · rintro ⟨hended, hlength⟩
    obtain ⟨m, hm⟩ := ended_iff.mp hended
    classical
    have hfound := Nat.find_spec (p := EndsAt step s as) ⟨m, hm⟩
    have hfirst : ∀ j < Nat.find (p := EndsAt step s as) ⟨m, hm⟩, ¬ EndsAt step s as j :=
      fun j hj => Nat.find_min (p := EndsAt step s as) ⟨m, hm⟩ hj
    have := hFirst _ hfound hfirst
    obtain rfl : k = Nat.find (p := EndsAt step s as) ⟨m, hm⟩ := by omega
    exact ⟨hfound, hfirst⟩
  · rintro ⟨hk, hfirst⟩
    exact ⟨ended_iff.mpr ⟨k, hk⟩, hFirst k hk hfirst⟩

/-- A loop that no step ends takes all inputs. -/
theorem length_states_of_forall (h : ∀ k, ¬ EndsAt step s as k) :
    (states step s as).length = as.length := by
  apply le_antisymm length_states_le
  by_contra hlt
  have := lt_length_states_iff.mpr ⟨not_le.mp hlt, fun j _ => h j⟩
  exact absurd this (lt_irrefl _)

end XfceLinux.Lib.Loop
