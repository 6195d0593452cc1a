import XfceLinux.Install.Repair

/-!
# What the wrapper gives back

A script that ends with 0 has unmounted the root, closed the container and removed its directory,
on every way through the branches, if the commands that do so succeed. A write into the
deployment that fails ends it with the root still mounted.
-/

namespace XfceLinux.Install

open Lib.Shell Lib.Shell.Script

/-- What is mounted and what is unlocked. -/
def State.held (s : State) : Bool × Bool := (s.mounted, s.unlocked)

/-- What is held when `MOUNTED` has this value. -/
def Holds (env : Env) (mounted : Bool) (s : State) : Prop :=
  (s.mounted = true → mounted = true) ∧ (s.unlocked = true → mounted = true ∧ luksDev env ≠ [])

variable {env : Env} {s : State} {exits : Nat → State → Prop}

theorem holds_false (h : s.held = (false, false)) (mounted : Bool) : Holds env mounted s := by
  obtain ⟨hmounted, hunlocked⟩ := Prod.mk.inj h
  simp [Holds, hmounted, hunlocked]

/-- What is mounted and unlocked is held for `repair`. -/
theorem mountRoot_holds (hclose : env.luksClose = 0) (hs : s.held = (false, false)) :
    wp (mountRoot env) (fun m t => Holds env m t) exits s := by
  obtain ⟨hmounted, hunlocked⟩ := Prod.mk.inj hs
  unfold mountRoot
  rw [wp_ite, wp_ite]
  refine ⟨fun hluks => ?_, fun _ => ⟨fun _ => ?_, fun _ => ?_⟩⟩
  · simp only [mountLuks, wp_ite, wp_bind, wp_notApplied, wp_update, wp_say, wp_luksClose, wp_pure]
    simp [Holds, hmounted, hunlocked, hclose, hluks]
  · simp only [mountPlain, wp_ite, wp_bind, wp_notApplied, wp_update, wp_pure]
    simp [Holds, hmounted, hunlocked]
  · rw [wp_notApplied]
    exact holds_false hs false

section

variable (hexits : ∀ status t, status ≠ 0 → exits status t)

include hexits

theorem classify_held :
    wp (classify env) (fun _ t => t.held = s.held) exits s := by
  rw [classify, wp_bind, wp_check_of_exits hexits, wp_bind, wp_say, wp_ite, wp_ite]
  simp only [wp_bind, wp_say, wp_pure, wp_exit]
  exact fun _ => ⟨fun hfailed => ⟨fun _ => rfl, fun _ => hexits _ _ hfailed⟩, fun _ => rfl⟩

theorem patch_held (hostnameFailed : Bool) :
    wp (patch env hostnameFailed) (fun _ t => t.held = s.held) exits s := by
  unfold patch
  rw [wp_ite, wp_say, wp_bind, wp_when, patchHostname, patchOverride]
  simp only [wp_bind, wp_say, wp_write, wp_check_of_exits hexits]
  simp [State.held]

theorem repair_releases (humount : env.umount = 0) (hclose : env.luksClose = 0) (b : Bool)
    {m : Bool} (hs : Holds env m s) :
    wp (repair env b m) (fun _ t => t.held = (false, false)) exits s := by
  obtain ⟨hmounted, hunlocked⟩ := hs
  rw [repair, wp_when, wp_bind]
  constructor
  · intro _
    refine wp_mono (patch_held hexits b) fun _ t ht => ?_
    have hplain : ¬ luksDev env ≠ [] → t.unlocked = false := by
      intro hluks
      rw [(Prod.mk.inj ht).2, ← Bool.not_eq_true]
      exact fun h => hluks (hunlocked h).2
    rw [unmount, wp_bind, wp_update, wp_when, wp_luksClose]
    simp only [State.held, humount, hclose, ne_eq, not_true_eq_false, decide_false, Bool.and_false,
      true_and, implies_true, Prod.mk.injEq]
    exact hplain
  · intro hm
    have hfree : s.mounted = false ∧ s.unlocked = false := by
      simp only [← Bool.not_eq_true]
      exact ⟨fun h => hm (hmounted h), fun h => hm (hunlocked h).1⟩
    exact Prod.ext hfree.1 hfree.2

end

/-- **Everything is given back** by a script that ends with 0. -/
theorem fishermanInstall_releases (humount : env.umount = 0) (hclose : env.luksClose = 0)
    (hrmdir : env.rmdir = 0) (hrun : (run (fishermanInstall env) {}).1 = 0) :
    (run (fishermanInstall env) {}).2.held = (false, false) ∧
      (run (fishermanInstall env) {}).2.directory = false := by
  have hexits := zero_of_ne_zero fun t : State => t.held = (false, false) ∧ t.directory = false
  refine (run_zero_iff_wp _ _ fun t => t.held = (false, false) ∧ t.directory = false).mpr ?_ hrun
  rw [fishermanInstall, wp_bind]
  refine wp_mono (classify_held hexits) fun b t ht => ?_
  rw [detect]
  simp only [wp_bind, wp_check_of_exits hexits, wp_update]
  intro _ _ _
  refine wp_mono (mountRoot_holds hclose ht) fun m t ht => ?_
  rw [wp_bind]
  refine wp_mono (repair_releases hexits humount hclose b ht) fun _ t ht => ?_
  rw [finish, wp_bind, wp_update, wp_say]
  exact ⟨ht, by simp [hrmdir]⟩

end XfceLinux.Install
