import XfceLinux.Install.Hostname

/-!
# When a failed install ends with success

The wrapper goes on after a failure of `fisherman` in order to repair it. Where the repair is
not reached, because the root is not unlocked, not mounted or holds no deployment, it prints
an error and still exits with 0. The exact condition under which success means that `fisherman`
succeeded or that the hostname has been written is `sound_iff`.
-/

namespace XfceLinux.Install

open Lib Lib.Text Lib.Shell Lib.Shell.Script

/-! ## What success should mean -/

/-- The deployments that are found on the target disk. -/
def deployments (env : Env) : List Str := bootcDeploy env ++ ostreeDeploy env

/-- The recipe's hostname has been written to `etc/hostname` of a deployment. -/
def Repaired (env : Env) (files : List (Str × Str)) : Prop :=
  ∃ h, recipeHostname env.recipe = some h ∧
    ∃ etc ∈ deployments env, (etc ++ "/hostname".toList, h ++ ['\n']) ∈ files

/-- Success means that `fisherman` succeeded or that its failure is repaired. -/
def Sound (env : Env) : Prop :=
  (run (fishermanInstall env) {}).1 = 0 →
    env.fisherman = 0 ∨ Repaired env (run (fishermanInstall env) {}).2.files

/-! ## When it does -/

/-- The partition table has a partition with one of these file systems. -/
def Lists (fstypes : List Str) (rows : List Str) : Prop :=
  ∃ row ∈ rows, ∃ name fstype rest, fields row = name :: fstype :: rest ∧ fstype ∈ fstypes

/-- The script gets as far as unlocking and mounting: `fisherman` succeeded or failed to write
the hostname, and no command fails whose failure ends the script. -/
def Proceeds (env : Env) : Prop :=
  env.cat = 0 ∧ (env.fisherman = 0 ∨ hostnameFailure env.log = true) ∧
    env.lsblkLuks.status = 0 ∧ env.lsblkRoot.status = 0 ∧ env.mktemp = 0

/-- The root of a LUKS install is unlocked and mounted, that of a plain install mounted. -/
def Mounts (env : Env) : Prop :=
  env.mount = 0 ∧
    (Lists ["crypto_LUKS".toList] env.lsblkLuks.rows ∧ passphrase env ≠ [] ∧ env.luksOpen = 0 ∨
      ¬ Lists ["crypto_LUKS".toList] env.lsblkLuks.rows ∧
        Lists ["btrfs".toList, "xfs".toList] env.lsblkRoot.rows)

/-- One of the two searches finds a deployment. -/
def Finds (env : Env) : Prop := head1 (bootcDeploy env) ≠ [] ∨ head1 (ostreeDeploy env) ≠ []

/-- No write into the deployment fails. A failure ends the script. -/
def Writes (env : Env) : Prop :=
  (env.fisherman ≠ 0 → env.writeHostname = 0) ∧ env.mkdir = 0 ∧ env.writeOverride = 0

/-! ## The partitions and the deployment -/

theorem awkRow_eq_some {fstypes : List Str} {row name : Str} :
    awkRow fstypes row = some name ↔
      ∃ fstype rest, fields row = name :: fstype :: rest ∧ fstype ∈ fstypes := by
  unfold awkRow
  split
  · rename_i device fstype rest hfields
    rw [Option.ite_none_right_eq_some, List.contains_iff_mem, Option.some.injEq, hfields]
    constructor
    · rintro ⟨hmem, rfl⟩
      exact ⟨fstype, rest, rfl, hmem⟩
    · rintro ⟨fstype', rest', heq, hmem⟩
      obtain ⟨rfl, htail⟩ := List.cons.inj heq
      exact ⟨(List.cons.inj htail).1 ▸ hmem, rfl⟩
  · rename_i hfields
    refine iff_of_false (Option.some_ne_none name).symm ?_
    rintro ⟨fstype, rest, heq, -⟩
    exact hfields name fstype rest heq

theorem ne_nil_of_mem_fields {row field : Str} (h : field ∈ fields row) : field ≠ [] := by
  simpa using (List.mem_filter.mp h).2

/-- `awk` prints the name of a partition if there is one. -/
theorem awk_ne_nil {fstypes rows : List Str} : awk fstypes rows ≠ [] ↔ Lists fstypes rows := by
  have hlists : Lists fstypes rows ↔ ∃ row ∈ rows, ∃ name, awkRow fstypes row = some name := by
    simp only [Lists, awkRow_eq_some]
  rw [hlists, awk]
  cases hfind : rows.findSome? (awkRow fstypes) with
  | none =>
    rw [List.findSome?_eq_none_iff] at hfind
    refine iff_of_false (fun h => h rfl) ?_
    rintro ⟨row, hrow, name, hname⟩
    exact Option.some_ne_none name (hname.symm.trans (hfind row hrow))
  | some name =>
    obtain ⟨row, hrow, hname⟩ := List.exists_of_findSome?_eq_some hfind
    obtain ⟨fstype, rest, hfields, -⟩ := awkRow_eq_some.mp hname
    have hmem : name ∈ fields row := hfields ▸ List.mem_cons_self
    exact iff_of_true (ne_nil_of_mem_fields hmem) ⟨row, hrow, name, hname⟩

theorem deployEtc_ne_nil {env : Env} : deployEtc env ≠ [] ↔ Finds env := by
  unfold deployEtc Finds
  split <;> simp [*]

theorem mem_of_head1_ne_nil {lines : List Str} (h : head1 lines ≠ []) : head1 lines ∈ lines := by
  cases lines with
  | nil => exact absurd rfl h
  | cons line lines => exact List.mem_cons_self

theorem deployEtc_mem {env : Env} (h : deployEtc env ≠ []) : deployEtc env ∈ deployments env := by
  rw [deployments, List.mem_append]
  by_cases hbootc : head1 (bootcDeploy env) = []
  · rw [deployEtc, if_pos hbootc] at h ⊢
    exact .inr (mem_of_head1_ne_nil h)
  · rw [deployEtc, if_neg hbootc]
    exact .inl (mem_of_head1_ne_nil hbootc)

/-- The files that the script writes into the deployment. -/
def written (env : Env) (hostnameFailed : Bool) : List (Str × Str) :=
  (if hostnameFailed then
    [(deployEtc env ++ "/hostname".toList, echo (hostname env.recipe))] else []) ++
    [(overrideDir (deployEtc env) ++ "/override.conf".toList, overrideText)]

/-- `P` holds of the files that are left when the root is mounted and the script goes on. -/
def Patched (env : Env) (hostnameFailed : Bool) (P : List (Str × Str) → Prop)
    (files : List (Str × Str)) : Prop :=
  (¬ Finds env → P files) ∧ (Finds env → (hostnameFailed = true → env.writeHostname = 0) →
    env.mkdir = 0 → env.writeOverride = 0 → P (files ++ written env hostnameFailed))

/-! ## The parts of the script -/

section

variable {env : Env} {s : State} {P : List (Str × Str) → Prop} {exits : Nat → State → Prop}

@[simp] theorem wp_say {next : Unit → State → Prop} (line : Str) :
    wp (say line) next exits s ↔ next () { s with stdout := s.stdout ++ [line] } := Iff.rfl

@[simp] theorem wp_write {next : Unit → State → Prop} (path content : Str) :
    wp (write path content) next exits s ↔
      next () { s with files := s.files ++ [(path, content)] } := Iff.rfl

@[simp] theorem wp_luksClose {next : Unit → State → Prop} :
    wp (luksClose env) next exits s ↔
      next () { s with unlocked := s.unlocked && env.luksClose ≠ 0 } := Iff.rfl

@[simp] theorem wp_notApplied {next : Bool → State → Prop} (message : Str) :
    wp (notApplied message) next exits s ↔ next false { s with
      stdout := s.stdout ++
        ["ERROR: ".toList ++ message ++ " — post-install patch not applied".toList] } := by
  rw [notApplied, wp_bind, wp_say, wp_pure]

theorem wp_mountLuks {P : Bool → List (Str × Str) → Prop} :
    wp (mountLuks env) (fun b t => P b t.files) exits s ↔
      P (passphrase env ≠ [] ∧ env.luksOpen = 0 ∧ env.mount = 0) s.files := by
  unfold mountLuks
  by_cases hpassphrase : passphrase env = []
  · rw [if_pos hpassphrase, wp_notApplied]
    simp [hpassphrase]
  rw [if_neg hpassphrase]
  by_cases hopen : env.luksOpen = 0
  · rw [if_pos hopen, wp_bind, wp_update]
    by_cases hmount : env.mount = 0
    · rw [if_pos hmount, wp_bind, wp_update, wp_pure]
      simp [hpassphrase, hopen, hmount]
    · rw [if_neg hmount, wp_bind, wp_notApplied, wp_bind, wp_say, wp_bind, wp_luksClose, wp_pure]
      simp [hmount]
  · rw [if_neg hopen, wp_bind, wp_notApplied, wp_bind, wp_say, wp_pure]
    simp [hopen]

theorem wp_mountPlain {P : Bool → List (Str × Str) → Prop} :
    wp (mountPlain env) (fun b t => P b t.files) exits s ↔ P (env.mount = 0) s.files := by
  unfold mountPlain
  by_cases hmount : env.mount = 0
  · rw [if_pos hmount, wp_bind, wp_update, wp_pure]
    simp [hmount]
  · rw [if_neg hmount, wp_notApplied]
    simp [hmount]

/-- `mountRoot` ends the script in no case, and touches no file. -/
theorem wp_mountRoot {P : Bool → List (Str × Str) → Prop} :
    wp (mountRoot env) (fun b t => P b t.files) exits s ↔
      (Mounts env → P true s.files) ∧ (¬ Mounts env → P false s.files) := by
  have hdecide (c : Prop) [Decidable c] (hc : Mounts env ↔ c) : P c s.files ↔
      (Mounts env → P true s.files) ∧ (¬ Mounts env → P false s.files) := by
    rw [hc]
    by_cases h : c <;> simp [h]
  unfold mountRoot
  by_cases hluks : luksDev env ≠ []
  · rw [if_pos hluks, wp_mountLuks]
    have hlists := awk_ne_nil.mp hluks
    apply hdecide
    rw [Mounts]
    tauto
  have hlists := mt awk_ne_nil.mpr hluks
  rw [if_neg hluks]
  by_cases hroot : rootDev env ≠ []
  · rw [if_pos hroot, wp_mountPlain]
    have hlistsRoot := awk_ne_nil.mp hroot
    apply hdecide
    rw [Mounts]
    tauto
  · rw [if_neg hroot, wp_notApplied]
    have hlistsRoot := mt awk_ne_nil.mpr hroot
    have hno : ¬ Mounts env := by
      rw [Mounts]
      tauto
    simp [hno]

theorem wp_unmount : wp (unmount env) (fun _ t => P t.files) exits s ↔ P s.files := by
  rw [unmount, wp_bind, wp_update, wp_when, wp_luksClose]
  tauto

theorem wp_finish : wp (finish env) (fun _ t => P t.files) exits s ↔ P s.files := by
  rw [finish, wp_bind, wp_update, wp_say]

section

variable (hexits : ∀ status t, status ≠ 0 → exits status t)

include hexits

/-- Only a failure to write the hostname lets a failed install go on. -/
theorem wp_classify {P : Bool → List (Str × Str) → Prop} :
    wp (classify env) (fun b t => P b t.files) exits s ↔ (env.cat = 0 →
      (env.fisherman = 0 ∨ hostnameFailure env.log = true) → P (env.fisherman ≠ 0) s.files) := by
  rw [classify, wp_bind, wp_check_of_exits hexits, wp_bind, wp_say, wp_ite, wp_ite]
  simp only [wp_bind, wp_say, wp_pure, wp_exit]
  by_cases hfisherman : env.fisherman = 0
  · simp [hfisherman]
  · simp [hfisherman, hexits _ _ hfisherman]

theorem wp_detect :
    wp (detect env) (fun _ t => P t.files) exits s ↔ (env.lsblkLuks.status = 0 →
      env.lsblkRoot.status = 0 → env.mktemp = 0 → P s.files) := by
  rw [detect, wp_bind, wp_check_of_exits hexits, wp_bind, wp_check_of_exits hexits, wp_bind,
    wp_check_of_exits hexits, wp_update]

theorem wp_patch (hostnameFailed : Bool) :
    wp (patch env hostnameFailed) (fun _ t => P t.files) exits s ↔
      Patched env hostnameFailed P s.files := by
  unfold patch
  rw [wp_ite, deployEtc_ne_nil, wp_say, wp_bind, wp_when, patchHostname, patchOverride]
  simp only [wp_bind, wp_say, wp_write, wp_check_of_exits hexits]
  cases hostnameFailed <;> simp [Patched, written, and_comm]

theorem wp_repair (hostnameFailed mounted : Bool) :
    wp (repair env hostnameFailed mounted) (fun _ t => P t.files) exits s ↔
      (mounted = true → Patched env hostnameFailed P s.files) ∧ (mounted ≠ true → P s.files) := by
  rw [repair, wp_when, wp_bind, wp_congr fun _ _ => wp_unmount, wp_patch hexits]

/-- **The whole script.** It ends with 0 and writes nothing where it reaches no deployment. -/
theorem wp_fishermanInstall :
    wp (fishermanInstall env) (fun _ t => P t.files) exits s ↔ (Proceeds env →
      (Mounts env → Patched env (env.fisherman ≠ 0) P s.files) ∧ (¬ Mounts env → P s.files)) := by
  have hroot (b : Bool) (t : State) :
      wp (mountRoot env >>= fun m => repair env b m >>= fun _ => finish env)
        (fun _ t => P t.files) exits t ↔
          (Mounts env → Patched env b P t.files) ∧ (¬ Mounts env → P t.files) := by
    have hrepair (m : Bool) (t : State) :
        wp (repair env b m >>= fun _ => finish env) (fun _ t => P t.files) exits t ↔
          (m = true → Patched env b P t.files) ∧ (m ≠ true → P t.files) := by
      rw [wp_bind, wp_congr fun _ _ => wp_finish, wp_repair hexits]
    rw [wp_bind, wp_congr hrepair]
    refine (wp_mountRoot (P := fun m files =>
      (m = true → Patched env b P files) ∧ (m ≠ true → P files))).trans ?_
    simp
  have hdetect (b : Bool) (t : State) :
      wp (detect env >>= fun _ => mountRoot env >>= fun m => repair env b m >>= fun _ =>
        finish env) (fun _ t => P t.files) exits t ↔ (env.lsblkLuks.status = 0 →
          env.lsblkRoot.status = 0 → env.mktemp = 0 →
            (Mounts env → Patched env b P t.files) ∧ (¬ Mounts env → P t.files)) := by
    rw [wp_bind, wp_congr fun _ => hroot b]
    exact wp_detect (P := fun files =>
      (Mounts env → Patched env b P files) ∧ (¬ Mounts env → P files)) hexits
  rw [fishermanInstall, wp_bind, wp_congr hdetect]
  refine (wp_classify (P := fun b files => env.lsblkLuks.status = 0 → env.lsblkRoot.status = 0 →
    env.mktemp = 0 → (Mounts env → Patched env b P files) ∧ (¬ Mounts env → P files))
    hexits).trans ?_
  rw [Proceeds]
  tauto

end

end

/-! ## Success and repair -/

theorem not_repaired_nil (env : Env) : ¬ Repaired env [] := by
  rintro ⟨h, -, etc, -, hmem⟩
  exact List.not_mem_nil hmem

theorem hostname_ne_override (etc etc' : Str) :
    etc ++ "/hostname".toList ≠ overrideDir etc' ++ "/override.conf".toList := by
  intro h
  have hlast := congrArg List.getLast? h
  simp at hlast

/-- The files that are written repair the install if the recipe is read as it states. -/
theorem repaired_written {env : Env} (h : Finds env) :
    Repaired env (written env true) ↔ Legible env.recipe := by
  have hetc := deployEtc_mem (deployEtc_ne_nil.mpr h)
  constructor
  · rintro ⟨name, hname, etc, -, hmem⟩
    rcases List.mem_cons.mp hmem with heq | hmem
    · exact ⟨name, hname, (congrArg Prod.snd heq).symm⟩
    · exact absurd (congrArg Prod.fst (List.mem_singleton.mp hmem)) (hostname_ne_override _ _)
  · rintro ⟨name, hname, hecho⟩
    refine ⟨name, hname, deployEtc env, hetc, ?_⟩
    rw [← hecho]
    exact List.mem_cons_self

/-- **Success after a failure.** The script ends with 0 and leaves the install without its
hostname exactly where it goes on after a failure and does not reach a deployment, or writes
there what the recipe does not state. -/
theorem sound_iff (env : Env) :
    Sound env ↔ env.fisherman = 0 ∨ ¬ Proceeds env ∨
      Mounts env ∧ Finds env ∧ (¬ Writes env ∨ Legible env.recipe) := by
  have hrun := run_zero_iff_wp (fishermanInstall env) {}
    fun t => env.fisherman = 0 ∨ Repaired env t.files
  rw [Sound, hrun, wp_fishermanInstall (P := fun files => env.fisherman = 0 ∨ Repaired env files)
    (zero_of_ne_zero _)]
  by_cases hfisherman : env.fisherman = 0
  · simp [hfisherman, Patched]
  have hfailed : decide (env.fisherman ≠ 0) = true := decide_eq_true hfisherman
  simp only [hfisherman, hfailed, false_or, Patched, List.nil_append, true_implies, Writes,
    not_repaired_nil]
  by_cases hfinds : Finds env
  · rw [repaired_written hfinds]
    tauto
  · tauto

/-- A plain install whose root cannot be mounted. -/
def mountFails : Env where
  fisherman := 1
  log := "writing hostname: reading composefs deploy base: no such file or directory".toList
  cat := 0
  recipe := "\x7b\"hostname\": \"tuna\"\x7d".toList
  repr _ := []
  lsblkLuks := ⟨["/dev/vda".toList, "/dev/vda1 vfat".toList, "/dev/vda2 btrfs".toList], 0⟩
  lsblkRoot := ⟨["/dev/vda".toList, "/dev/vda1 vfat".toList, "/dev/vda2 btrfs".toList], 0⟩
  mktemp := 0
  mnt := "/tmp/post-install-fix-aB3x".toList
  mapper := "post-install-fix-4711".toList
  luksOpen := 0
  cryptsetupErr := []
  mount := 32
  find _ _ := []
  writeHostname := 0
  mkdir := 0
  writeOverride := 0
  umount := 0
  luksClose := 0
  rmdir := 0

theorem not_sound_mountFails : ¬ Sound mountFails := by
  intro h
  have hexit : (run (fishermanInstall mountFails) {}).1 = 0 := by decide
  have hfiles : (run (fishermanInstall mountFails) {}).2.files = [] := by decide
  rcases h hexit with hfisherman | hrepaired
  · exact absurd hfisherman (by decide)
  · rw [hfiles] at hrepaired
    exact not_repaired_nil _ hrepaired

/-! ## What the script says -/

/-- Some line says that the patches are not applied. -/
def Warned (s : State) : Prop := ∃ line ∈ s.stdout, " not applied".toList <:+ line

theorem Warned.say {s : State} (h : Warned s) (line : Str) :
    Warned { s with stdout := s.stdout ++ [line] } := by
  obtain ⟨l, hl, hsuffix⟩ := h
  exact ⟨l, List.mem_append_left _ hl, hsuffix⟩

section

variable {env : Env} {s : State} {exits : Nat → State → Prop}

theorem notApplied_warns (message : Str) :
    wp (notApplied message) (fun m t => m = false ∧ Warned t ∧ t.files = s.files) exits s := by
  rw [wp_notApplied]
  have hsuffix : " not applied".toList <:+ " — post-install patch not applied".toList :=
    ⟨" — post-install patch".toList, by simp⟩
  refine ⟨rfl, ⟨_, List.mem_append_right _ List.mem_cons_self, ?_⟩, rfl⟩
  exact hsuffix.trans (List.suffix_append _ _)

theorem mountLuks_warns :
    wp (mountLuks env) (fun m t => (m = false → Warned t) ∧ t.files = s.files) exits s := by
  unfold mountLuks
  rw [wp_ite, wp_ite]
  refine ⟨fun _ => ?_, fun _ => ⟨fun _ => ?_, fun _ => ?_⟩⟩
  · exact wp_mono (notApplied_warns _) fun m t ht => ⟨fun _ => ht.2.1, ht.2.2⟩
  · rw [wp_bind, wp_update, wp_ite]
    refine ⟨fun _ => ?_, fun _ => ?_⟩
    · rw [wp_bind, wp_update, wp_pure]
      exact ⟨fun h => absurd h (by decide), rfl⟩
    · rw [wp_bind]
      refine wp_mono (notApplied_warns _) fun m t ht => ?_
      rw [wp_bind, wp_say, wp_bind, wp_luksClose, wp_pure]
      exact ⟨fun _ => ht.2.1.say env.cryptsetupErr, ht.2.2⟩
  · rw [wp_bind]
    refine wp_mono (notApplied_warns _) fun m t ht => ?_
    rw [wp_bind, wp_say, wp_pure]
    exact ⟨fun _ => ht.2.1.say env.cryptsetupErr, ht.2.2⟩

/-- A root that is not mounted is reported. -/
theorem mountRoot_warns :
    wp (mountRoot env) (fun m t => (m = false → Warned t) ∧ t.files = s.files) exits s := by
  unfold mountRoot
  rw [wp_ite, wp_ite, mountPlain, wp_ite]
  refine ⟨fun _ => mountLuks_warns, fun _ => ⟨fun _ => ⟨fun _ => ?_, fun _ => ?_⟩, fun _ => ?_⟩⟩
  · rw [wp_bind, wp_update, wp_pure]
    exact ⟨fun h => absurd h (by decide), rfl⟩
  · exact wp_mono (notApplied_warns _) fun m t ht => ⟨fun _ => ht.2.1, ht.2.2⟩
  · exact wp_mono (notApplied_warns _) fun m t ht => ⟨fun _ => ht.2.1, ht.2.2⟩

variable (hexits : ∀ status t, status ≠ 0 → exits status t)

include hexits

/-- So is a root in which no deployment is found. -/
theorem patch_warns (hostnameFailed : Bool) :
    wp (patch env hostnameFailed)
      (fun _ t => Warned t ∨ t.files = s.files ++ written env hostnameFailed) exits s := by
  unfold patch
  rw [wp_ite, wp_say, wp_bind, wp_when, patchHostname, patchOverride]
  simp only [wp_bind, wp_say, wp_write, wp_check_of_exits hexits]
  refine ⟨fun _ => ?_, fun _ => .inl ⟨_, List.mem_append_right _ List.mem_cons_self, ?_⟩⟩
  · cases hostnameFailed <;> simp [written]
  · have hsuffix : " not applied".toList <:+
        "/ostree — post-install patches not applied".toList :=
      ⟨"/ostree — post-install patches".toList, by simp⟩
    exact hsuffix.trans (List.suffix_append _ _)

theorem repair_warns {m : Bool} (hs : m = false → Warned s) (b : Bool) :
    wp (repair env b m) (fun _ t => Warned t ∨ t.files = s.files ++ written env b) exits s := by
  rw [repair, wp_when, wp_bind]
  refine ⟨fun _ => wp_mono (patch_warns hexits b) fun _ t ht => ?_, fun hm => ?_⟩
  · rw [unmount, wp_bind, wp_update, wp_when, wp_luksClose]
    exact ⟨fun _ => ht, fun _ => ht⟩
  · exact .inl (hs (Bool.eq_false_of_not_eq_true hm))

end

/-- **A script that ends with 0** has written its files, or it has said that it did not. -/
theorem fishermanInstall_warns {env : Env} (hrun : (run (fishermanInstall env) {}).1 = 0) :
    Warned (run (fishermanInstall env) {}).2 ∨
      (run (fishermanInstall env) {}).2.files = written env (env.fisherman ≠ 0) := by
  have hexits := zero_of_ne_zero fun t : State =>
    Warned t ∨ t.files = written env (env.fisherman ≠ 0)
  -- `PATCH_HOSTNAME` is set if `fisherman` failed
  have hclassify :
      wp (classify env) (fun b t => b = decide (env.fisherman ≠ 0) ∧ t.files = []) _ {} :=
    (wp_classify (P := fun b files => b = decide (env.fisherman ≠ 0) ∧ files = [])
      hexits).mpr fun _ _ => ⟨rfl, rfl⟩
  refine (run_zero_iff_wp _ _ fun t =>
    Warned t ∨ t.files = written env (env.fisherman ≠ 0)).mpr ?_ hrun
  rw [fishermanInstall, wp_bind]
  refine wp_mono hclassify ?_
  rintro _ t ⟨rfl, ht⟩
  rw [wp_bind]
  refine wp_mono ((wp_detect (P := fun files => files = []) hexits).mpr fun _ _ _ => ht) ?_
  intro _ t ht
  rw [wp_bind]
  refine wp_mono mountRoot_warns fun m t hm => ?_
  rw [wp_bind]
  refine wp_mono (repair_warns hexits hm.1 _) fun _ t hfiles => ?_
  rw [hm.2, ht, List.nil_append] at hfiles
  rw [finish, wp_bind, wp_update, wp_say]
  exact hfiles.imp_left fun hwarned => hwarned.say _

end XfceLinux.Install
