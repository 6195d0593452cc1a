import XfceLinux.Ghcr.Resume

/-!
# What exit status 0 says about stdout

`out.write(buf)` is inside the `try` block of the download, so an `OSError` of stdout is
taken for a cut connection: the bytes stdout has accepted of `buf` are neither hashed nor
counted, and the next attempt asks for them again. The final checks compare the length
and the hash of what was hashed, not of what stdout received. The two are equal exactly
when no write failed after accepting a part of its buffer (`exit_zero_certifies_iff`).
-/

namespace XfceLinux.Ghcr

open Lib.Text Lib.Machine

/-- No write of the run so far raised an exception after accepting a byte. -/
def CleanWrites (env : Env) (s : St) : Prop :=
  ∀ i < s.writes, ∀ k, env.sink i = some k → k = 0

/-- The bytes stdout has accepted and the running sha256 is about to consume. -/
def St.unhashed (s : St) : Bytes :=
  match s.pc with
  | .update _ buf => buf
  | _ => []

/-- How the bytes accepted by stdout relate to the bytes hashed. -/
structure Spill (env : Env) (s : St) : Prop where
  /-- `offset` counts the hashed bytes. -/
  hashed : s.sha.length = s.offset + s.shaAhead
  nonempty : ∀ resp buf, s.pc = .write resp buf → buf ≠ []
  clean : CleanWrites env s → s.out = s.sha ++ s.unhashed
  spilled : ¬ CleanWrites env s → s.sha.length + s.unhashed.length < s.out.length
  verified : s.pc = .done (.exit 0) →
    (s.offset : Int) = env.size ∧ "sha256:".toList ++ env.hexdigest s.sha = env.digest

theorem cleanWrites_succ {env : Env} {s t : St} (hw : t.writes = s.writes + 1) :
    CleanWrites env t ↔ CleanWrites env s ∧ ∀ k, env.sink s.writes = some k → k = 0 := by
  unfold CleanWrites
  rw [hw]
  constructor
  · exact fun h => ⟨fun i hi => h i (by omega), h s.writes (by omega)⟩
  · rintro ⟨h, hlast⟩ i hi
    rcases Nat.lt_succ_iff_lt_or_eq.mp hi with hi | rfl
    · exact h i hi
    · exact hlast

theorem Spill.idle {env : Env} {s t : St} (h : Spill env s) (hs : s.shaAhead = 0)
    (ht : t.shaAhead = 0) (hu : s.unhashed = []) (hu' : t.unhashed = [])
    (ho : t.out = s.out) (hsha : t.sha = s.sha) (hoff : t.offset = s.offset)
    (hw : t.writes = s.writes) (hne : ∀ resp buf, t.pc = .write resp buf → buf ≠ [])
    (hv : t.pc = .done (.exit 0) → (s.offset : Int) = env.size ∧
      "sha256:".toList ++ env.hexdigest s.sha = env.digest) : Spill env t where
  hashed := by rw [hsha, hoff, ht, h.hashed, hs]
  nonempty := hne
  clean hc := by
    rw [ho, hsha, hu', h.clean (by simpa only [CleanWrites, hw] using hc), hu]
  spilled hc := by
    have := h.spilled (by simpa only [CleanWrites, hw] using hc)
    rw [hu] at this
    rw [ho, hsha, hu']
    exact this
  verified hpc := by
    rw [hoff, hsha]
    exact hv hpc

theorem Spill.move {env : Env} {s t : St} (h : Spill env s) (hMove : Move env s t) :
    Spill env t := by
  cases hMove with
  | token hpc | noToken hpc =>
    rcases hpc with hpc | hpc <;>
      exact h.idle (by simp [St.shaAhead, hpc]) rfl (by simp [St.unhashed, hpc]) rfl rfl rfl
        rfl rfl (by simp) (by simp)
  | giveUp hpc | attempt hpc | leave hpc | refused hpc | notPartial hpc | opened hpc
  | complete hpc | readRaised hpc | readEmpty hpc | retried hpc | flushRaised hpc
  | wrongSize hpc | wrongDigest hpc =>
    exact h.idle (by simp [St.shaAhead, hpc]) rfl (by simp [St.unhashed, hpc]) rfl rfl rfl
      rfl rfl (by simp) (by simp)
  | readSome hpc hlt hread hbuf =>
    exact h.idle (by simp [St.shaAhead, hpc]) rfl (by simp [St.unhashed, hpc]) rfl rfl rfl
      rfl rfl (by rintro _ _ ⟨⟩; exact hbuf) (by simp)
  | verified hpc hflush hsize hdigest =>
    exact h.idle (by simp [St.shaAhead, hpc]) rfl (by simp [St.unhashed, hpc]) rfl rfl rfl
      rfl rfl (by simp) fun _ => ⟨hsize, hdigest⟩
  | wrote hpc hsink =>
    obtain ⟨hhash, -, hclean, hspill, -⟩ := h
    simp only [St.shaAhead, St.unhashed, hpc, List.append_nil, List.length_nil,
      Nat.add_zero] at hhash hclean hspill
    have hiff := @cleanWrites_succ env s { s with
      pc := .update ‹_› ‹_›, out := s.out ++ ‹_›, writes := s.writes + 1 } rfl
    simp only [hsink, reduceCtorEq, false_implies, implies_true, and_true] at hiff
    refine ⟨by simpa [St.shaAhead] using hhash, by simp, fun hc => ?_, fun hc => ?_, by simp⟩
    · simp only [St.unhashed]
      rw [hclean (hiff.mp hc)]
    · have := hspill fun hs => hc (hiff.mpr hs)
      simp only [St.unhashed, List.length_append]
      omega
  | @writeRaised resp buf k hpc hsink =>
    obtain ⟨hhash, hne, hclean, hspill, -⟩ := h
    simp only [St.shaAhead, St.unhashed, hpc, List.append_nil, List.length_nil,
      Nat.add_zero] at hhash hclean hspill
    have hiff := @cleanWrites_succ env s { s with
      pc := .caught .cut, out := s.out ++ buf.take k, writes := s.writes + 1 } rfl
    simp only [hsink, Option.some.injEq, forall_eq'] at hiff
    refine ⟨by simpa [St.shaAhead] using hhash, by simp, fun hc => ?_, fun hc => ?_, by simp⟩
    · obtain ⟨hs, rfl⟩ := hiff.mp hc
      simp [St.unhashed, hclean hs]
    · -- either the run was not clean before, or this write spills a byte
      have hpos := List.length_pos_iff.mpr (hne _ _ hpc)
      simp only [St.unhashed, List.length_nil, Nat.add_zero, List.length_append,
        List.length_take]
      by_cases hs : CleanWrites env s
      · have hk : k ≠ 0 := fun hk => hc (hiff.mpr ⟨hs, hk⟩)
        rw [hclean hs]
        omega
      · have := hspill hs
        omega
  | hashed hpc =>
    obtain ⟨hhash, -, hclean, hspill, -⟩ := h
    simp only [St.shaAhead, St.unhashed, hpc, Nat.add_zero] at hhash hclean hspill
    refine ⟨by simp [St.shaAhead, hhash], by simp, fun hc => ?_, fun hc => ?_, by simp⟩
    · simpa [St.unhashed] using hclean hc
    · simpa [St.unhashed] using hspill hc
  | advanced hpc =>
    obtain ⟨hhash, -, hclean, hspill, -⟩ := h
    simp only [St.shaAhead, St.unhashed, hpc] at hhash hclean hspill
    exact ⟨by simpa [St.shaAhead] using hhash, by simp, hclean, hspill, by simp⟩

theorem spill_moment {env : Env} {s : St} (h : Moment env s) : Spill env s :=
  h.invariant
    ⟨rfl, by simp [init], fun _ => rfl,
      fun hc => absurd (fun i (hi : i < 0) => absurd hi (Nat.not_lt_zero i)) hc,
      by simp [init]⟩
    fun _ _ => Spill.move

/-- **What exit status 0 certifies.** When `main` returns 0, what stdout accepted has the
length and the digest asked for if and only if no write of the run failed after accepting
a part of its buffer. -/
theorem exit_zero_certifies_iff {env : Env} {s : St} (h : Returns env 0 s) :
    ((s.out.length : Int) = env.size ∧
      "sha256:".toList ++ env.hexdigest s.out = env.digest) ↔ CleanWrites env s := by
  obtain ⟨hhash, -, hclean, hspill, hver⟩ := spill_moment h.1
  obtain ⟨hsize, hdigest⟩ := hver h.2
  simp only [St.shaAhead, St.unhashed, h.2, Nat.add_zero, List.append_nil,
    List.length_nil] at hhash hclean hspill
  constructor
  · rintro ⟨hlen, -⟩
    by_contra hc
    have := hspill hc
    omega
  · intro hc
    rw [hclean hc]
    exact ⟨by omega, hdigest⟩

/-- The download of `a` to a stdout whose first write fails after accepting the byte. -/
def letterTwice : Env := { letter with sink := fun n => if n = 0 then some 1 else none }

theorem letterTwice_returns : Returns letterTwice 0 (runFor (step letterTwice) 16 init) :=
  ⟨steps_runFor 16 init, by decide⟩

theorem exit_zero_certifies_iff_letterTwice :
    ¬ CleanWrites letterTwice (runFor (step letterTwice) 16 init) :=
  fun hc => absurd ((exit_zero_certifies_iff letterTwice_returns).mpr hc).1 (by decide)

/-- Exit status 0 with `a` written twice. -/
theorem exit_zero_does_not_certify :
    ¬ ∀ (env : Env) (s : St), Returns env 0 s →
      (s.out.length : Int) = env.size ∧
        "sha256:".toList ++ env.hexdigest s.out = env.digest :=
  fun h => absurd (h letterTwice _ letterTwice_returns).1 (by decide)

end XfceLinux.Ghcr
