import Mathlib

/-!
# Sequential programs as step functions

A program is a partial step function `step : σ → Option σ`: `none` means that it has
stopped. A state is a moment of a run when it is reached by `Steps step`. The rules of
this module are the invariant rule (`Steps.invariant`), termination from a decreasing
measure (`exists_halted`), the uniqueness of the state in which a run stops
(`Steps.halted_unique`), and the evaluation of concrete runs (`steps_runFor`).
-/

namespace XfceLinux.Lib.Machine

variable {σ : Type*} {step : σ → Option σ}

/-- `t` is a state of the run of `step` from `s`. -/
def Steps (step : σ → Option σ) : σ → σ → Prop :=
  Relation.ReflTransGen fun s t => step s = some t

/-- The program has stopped in `s`. -/
def Halted (step : σ → Option σ) (s : σ) : Prop := step s = none

namespace Steps

theorem refl (s : σ) : Steps step s s := Relation.ReflTransGen.refl

theorem tail {s t u : σ} (h : Steps step s t) (ht : step t = some u) : Steps step s u :=
  Relation.ReflTransGen.tail h ht

theorem head {s t u : σ} (hs : step s = some t) (h : Steps step t u) : Steps step s u :=
  Relation.ReflTransGen.head hs h

/-- What holds at the start and is kept by every step holds at every moment. -/
theorem invariant {P : σ → Prop} {s t : σ} (h : Steps step s t) (h₀ : P s)
    (hStep : ∀ a b, P a → step a = some b → P b) : P t := by
  induction h with
  | refl => exact h₀
  | tail _ hab ih => exact hStep _ _ ih hab

theorem total {s t u : σ} (h₁ : Steps step s t) (h₂ : Steps step s u) :
    Steps step t u ∨ Steps step u t :=
  Relation.ReflTransGen.total_of_right_unique
    (fun _ _ _ hb hc => Option.some.inj (hb.symm.trans hc)) h₁ h₂

theorem eq_of_halted {s t : σ} (h : Steps step s t) (hs : Halted step s) : t = s := by
  rcases Relation.ReflTransGen.cases_head h with he | ⟨u, hu, -⟩
  · exact he.symm
  · rw [Halted, hu] at hs
    cases hs

theorem halted_unique {s t u : σ} (h₁ : Steps step s t) (h₂ : Steps step s u)
    (ht : Halted step t) (hu : Halted step u) : t = u := by
  rcases h₁.total h₂ with h | h
  · exact (h.eq_of_halted ht).symm
  · exact h.eq_of_halted hu

end Steps

/-- A program whose steps decrease a well-founded measure stops. -/
theorem exists_halted {α : Type*} {r : α → α → Prop} (hr : WellFounded r) (μ : σ → α)
    (hStep : ∀ a b, step a = some b → r (μ b) (μ a)) (s : σ) :
    ∃ t, Steps step s t ∧ Halted step t := by
  generalize hμ : μ s = m
  induction m using hr.induction generalizing s with
  | _ m ih =>
    cases hs : step s with
    | none => exact ⟨s, .refl s, hs⟩
    | some u =>
      obtain ⟨t, hut, ht⟩ := ih (μ u) (hμ ▸ hStep s u hs) u rfl
      exact ⟨t, .head hs hut, ht⟩

/-- Run at most `n` steps. -/
def runFor (step : σ → Option σ) : Nat → σ → σ
  | 0, s => s
  | n + 1, s =>
    match step s with
    | some t => runFor step n t
    | none => s

theorem steps_runFor (n : Nat) (s : σ) : Steps step s (runFor step n s) := by
  induction n generalizing s with
  | zero => exact .refl s
  | succ n ih =>
    rw [runFor]
    split
    · rename_i t ht
      exact .head ht (ih t)
    · exact .refl s

end XfceLinux.Lib.Machine
