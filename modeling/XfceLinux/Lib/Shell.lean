import Mathlib

/-!
# Scripts that stop at the first failure

A part of a shell script under `set -e` changes a state and either goes on with a value or has
ended the script with a status. `wp x next exits` holds of the states from which `x` goes on as
`next` says or exits as `exits` says. There is one rule for each command, all of them
equivalences, so that a postcondition of a whole script becomes a condition on its inputs
(`run_zero_iff_wp`).
-/

namespace XfceLinux.Lib.Shell

/-- A part of a script over a state. -/
abbrev Script (σ α : Type) := ExceptT Nat (StateM σ) α

namespace Script

variable {σ α β : Type}

/-- `exit status` -/
def exit (status : Nat) : Script σ α := throw status

/-- A command with this status. -/
def check (status : Nat) : Script σ Unit := if status = 0 then pure () else exit status

/-- A command that succeeds and changes the state. -/
def update (f : σ → σ) : Script σ Unit := modify f

/-- A command that changes the state and has a status. -/
def command (f : σ → Nat × σ) : Script σ Unit := do
  let status ← modifyGet f
  check status

/-- `if c; then x; fi` -/
def when (c : Prop) [Decidable c] (x : Script σ Unit) : Script σ Unit := if c then x else pure ()

/-- The status of the script and the state that it leaves. -/
def run (x : Script σ Unit) (s : σ) : Nat × σ :=
  match ExceptT.run x s with
  | (.ok _, t) => (0, t)
  | (.error status, t) => (status, t)

/-- The states from which `x` goes on as `next` says, or exits as `exits` says. -/
def wp (x : Script σ α) (next : α → σ → Prop) (exits : Nat → σ → Prop) (s : σ) : Prop :=
  match ExceptT.run x s with
  | (.ok a, t) => next a t
  | (.error status, t) => exits status t

section

variable {next : α → σ → Prop} {exits : Nat → σ → Prop} {s : σ}

@[simp] theorem wp_pure (a : α) : wp (pure a) next exits s ↔ next a s := Iff.rfl

@[simp] theorem wp_bind (x : Script σ β) (f : β → Script σ α) :
    wp (x >>= f) next exits s ↔ wp x (fun b => wp (f b) next exits) exits s := by
  have hrun : ExceptT.run (x >>= f) s =
      match ExceptT.run x s with
      | (.ok b, t) => ExceptT.run (f b) t
      | (.error status, t) => (.error status, t) := by
    change (match ExceptT.run x s with | (b, t) => ExceptT.bindCont f b t) = _
    rcases ExceptT.run x s with ⟨_ | _, t⟩ <;> rfl
  unfold wp
  rw [hrun]
  rcases ExceptT.run x s with ⟨_ | _, t⟩ <;> rfl

@[simp] theorem wp_exit (status : Nat) :
    wp (exit status : Script σ α) next exits s ↔ exits status s := Iff.rfl

@[simp] theorem wp_ite (c : Prop) [Decidable c] (x y : Script σ α) :
    wp (if c then x else y) next exits s ↔
      (c → wp x next exits s) ∧ (¬ c → wp y next exits s) := by
  split <;> simp [*]

end

section

variable {next : Unit → σ → Prop} {exits : Nat → σ → Prop} {s : σ}

@[simp] theorem wp_update (f : σ → σ) : wp (update f) next exits s ↔ next () (f s) := Iff.rfl

@[simp] theorem wp_check (status : Nat) :
    wp (check status) next exits s ↔
      (status = 0 → next () s) ∧ (status ≠ 0 → exits status s) := by
  rw [check, wp_ite, wp_pure, wp_exit]

@[simp] theorem wp_command (f : σ → Nat × σ) :
    wp (command f) next exits s ↔
      ((f s).1 = 0 → next () (f s).2) ∧ ((f s).1 ≠ 0 → exits (f s).1 (f s).2) := by
  rw [command, wp_bind]
  exact wp_check (s := (f s).2) (f s).1

/-- Where nothing is said of a script that fails, a command is only followed if it succeeds. -/
theorem wp_check_of_exits (hexits : ∀ status t, status ≠ 0 → exits status t) (status : Nat) :
    wp (check status) next exits s ↔ (status = 0 → next () s) := by
  rw [wp_check, and_iff_left (hexits status s)]

@[simp] theorem wp_when (c : Prop) [Decidable c] (x : Script σ Unit) :
    wp (when c x) next exits s ↔ (c → wp x next exits s) ∧ (¬ c → next () s) := by
  rw [when, wp_ite, wp_pure]

end

/-- How a part goes on matters only for the states in which it goes on. -/
theorem wp_congr {x : Script σ α} {next next' : α → σ → Prop} {exits : Nat → σ → Prop} {s : σ}
    (h : ∀ a t, next a t ↔ next' a t) : wp x next exits s ↔ wp x next' exits s := by
  unfold wp
  rcases ExceptT.run x s with ⟨status | a, t⟩
  · rfl
  · exact h a t

theorem wp_mono {x : Script σ α} {next next' : α → σ → Prop} {exits : Nat → σ → Prop} {s : σ}
    (hx : wp x next exits s) (h : ∀ a t, next a t → next' a t) : wp x next' exits s := by
  unfold wp at hx ⊢
  rcases hrun : ExceptT.run x s with ⟨status | a, t⟩
  · rwa [hrun] at hx
  · rw [hrun] at hx
    exact h a t hx

/-- **A postcondition** of a script that ends with 0 is a condition on where it starts. -/
theorem run_zero_iff_wp (x : Script σ Unit) (s : σ) (P : σ → Prop) :
    ((run x s).1 = 0 → P (run x s).2) ↔
      wp x (fun _ => P) (fun status t => status = 0 → P t) s := by
  unfold run wp
  rcases ExceptT.run x s with ⟨_ | _, t⟩
  · rfl
  · exact forall_prop_of_true rfl

/-- What holds of the status and the state in which a script ends. -/
theorem run_iff_wp (x : Script σ Unit) (s : σ) (Q : Nat → σ → Prop) :
    Q (run x s).1 (run x s).2 ↔ wp x (fun _ => Q 0) Q s := by
  unfold run wp
  rcases ExceptT.run x s with ⟨_ | _, t⟩ <;> rfl

/-- Such a postcondition says nothing of a failure. -/
theorem zero_of_ne_zero (P : σ → Prop) (status : Nat) (t : σ) (h : status ≠ 0) :
    status = 0 → P t := fun hzero => absurd hzero h

end Script

end XfceLinux.Lib.Shell
