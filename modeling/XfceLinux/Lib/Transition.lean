import Mathlib

/-!
# Labelled transition systems

Several parties share one state. An action `a` can be taken in the state `s` when `step s a`
is a state, and the actions of the parties can follow each other in any order. A state is
reached within a condition on the actions when some sequence of actions leads to it and each
of them meets the condition in the state in which it is taken. The rules of this module are
the invariant rule (`Reaches.invariant`), weakening of the condition (`Reaches.mono`) and
the evaluation of concrete sequences (`reaches_of_runWithin`).
-/

namespace XfceLinux.Lib.Transition

variable {σ α : Type*} {step : σ → α → Option σ} {P Q : σ → α → Prop}

/-- Some actions, each of which meets `P` where it is taken, lead from the first state to
the second. -/
def Reaches (step : σ → α → Option σ) (P : σ → α → Prop) : σ → σ → Prop :=
  Relation.ReflTransGen fun s t => ∃ a, P s a ∧ step s a = some t

namespace Reaches

theorem refl (s : σ) : Reaches step P s s := Relation.ReflTransGen.refl

theorem tail {s t u : σ} {a : α} (h : Reaches step P s t) (hP : P t a)
    (hStep : step t a = some u) : Reaches step P s u :=
  Relation.ReflTransGen.tail h ⟨a, hP, hStep⟩

theorem head {s t u : σ} {a : α} (hP : P s a) (hStep : step s a = some t)
    (h : Reaches step P t u) : Reaches step P s u :=
  Relation.ReflTransGen.head ⟨a, hP, hStep⟩ h

/-- What holds at the start and is kept by every action that meets the condition holds in
every state reached. -/
theorem invariant {I : σ → Prop} {s t : σ} (h : Reaches step P s t) (h₀ : I s)
    (hStep : ∀ a u v, I u → P u a → step u a = some v → I v) : I t := by
  induction h with
  | refl => exact h₀
  | tail _ hab ih =>
    obtain ⟨a, hP, hv⟩ := hab
    exact hStep a _ _ ih hP hv

theorem mono {s t : σ} (h : Reaches step P s t) (hPQ : ∀ s a, P s a → Q s a) :
    Reaches step Q s t :=
  Relation.ReflTransGen.mono (fun s _ ⟨a, hP, ht⟩ => ⟨a, hPQ s a hP, ht⟩) _ _ h

end Reaches

/-- Take the given actions one after another, as long as each can be taken and meets the
condition. -/
def runWithin (step : σ → α → Option σ) (P : σ → α → Prop) [∀ s a, Decidable (P s a)] :
    σ → List α → Option σ
  | s, [] => some s
  | s, a :: as => if P s a then (step s a).bind fun t => runWithin step P t as else none

theorem reaches_of_runWithin [∀ s a, Decidable (P s a)] (as : List α) {s t : σ}
    (h : runWithin step P s as = some t) : Reaches step P s t := by
  induction as generalizing s with
  | nil =>
    rw [runWithin, Option.some_inj] at h
    exact h ▸ .refl s
  | cons a as ih =>
    rw [runWithin] at h
    split at h
    · rename_i hP
      obtain ⟨u, hu, ht⟩ := Option.bind_eq_some_iff.1 h
      exact .head hP hu (ih ht)
    · cases h

end XfceLinux.Lib.Transition
