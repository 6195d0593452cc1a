import XfceLinux.Ghcr.Pipe
import XfceLinux.Lib.Shell

/-!
# Restoring the cache from the registry

`cas-restore-stream.sh` asks for the manifest of an artifact and pipes the blob of its layer
through `zstd` and `tar` into the cache. The step `Download and Merge CAS Chunks` of the build
calls it for the core and for each chunk of the matrix, under the key of the chunk and, where
that fails, under `latest`. A chunk of which the step does not warn was extracted from a blob
with the size and the digest of its manifest (`merge_certified`).
-/

namespace XfceLinux.Ghcr

open Lib Lib.Text Lib.Machine Lib.Shell Lib.Shell.Script

/-! ## The script -/

/-- What the commands of one run of the script answer. `C` is what the cache may hold. -/
structure Commands (C : Type) where
  mkdir : Nat
  /-- `oras manifest fetch`, its status and what it prints. -/
  manifest : Str → Nat × Str
  /-- `jq -r '.layers[0].digest // empty'` -/
  digest : Str → Nat × Str
  /-- `jq -r '.layers[0].size // 0'`, which prints a number. -/
  size : Str → Nat × Int
  hexdigest : Bytes → Str
  bearer : Nat → Option Str
  server : Nat → Request → Answer
  sink : Nat → Option Nat
  flush : Bool
  /-- `zstd -d`, its status and what it writes. -/
  zstd : Bytes → Nat × Bytes
  /-- `tar -xf -`, its status and the cache behind it. -/
  tar : Bytes → C → Nat × C
  /-- A pipe that has no reader never gets one back. -/
  broken : ∀ i j, i ≤ j → (sink i).isSome → (sink j).isSome

/-- The cache, and what the script prints. -/
structure Cache (C : Type) where
  cache : C
  stdout : List Str := []
  stderr : List Str := []

section Script

variable {C : Type}

/-- The environment of `ghcr-blob-stream.py`. -/
def Commands.env (w : Commands C) (REF DIGEST : Str) (SIZE : Int) : Env where
  ref := REF
  digest := DIGEST
  size := SIZE
  hexdigest := w.hexdigest
  bearer := w.bearer
  server := w.server
  sink := w.sink
  flush := w.flush

/-- The status of a pipeline under `pipefail`: that of the last command that fails. -/
def pipefail (statuses : List Nat) : Nat := (statuses.reverse.find? (· ≠ 0)).getD 0

/-- The pipeline, with its status and the cache behind it. -/
def Commands.stream (w : Commands C) (REF DIGEST : Str) (SIZE : Int) (cache : C) : Nat × C :=
  let python := complete (w.env REF DIGEST SIZE) init
  let zstd := w.zstd python.out
  let tar := w.tar zstd.2 cache
  (pipefail [python.status, zstd.1, tar.1], tar.2)

def cas_restore_stream (w : Commands C) (REF CACHE_DIR : Str) : Script (Cache C) Unit := do
  check w.mkdir
  let MANIFEST := (w.manifest REF).2
  when ((w.manifest REF).1 ≠ 0) do
    update fun s => { s with stderr := s.stderr ++
      ["cas-restore-stream: no manifest for ".toList ++ REF ++ ": ".toList ++ MANIFEST] }
    exit 1
  check (w.digest MANIFEST).1
  let DIGEST := (w.digest MANIFEST).2
  check (w.size MANIFEST).1
  let SIZE := (w.size MANIFEST).2
  when (DIGEST = []) do
    update fun s => { s with stderr := s.stderr ++
      ["cas-restore-stream: ".toList ++ REF ++ " has no layers".toList] }
    exit 1
  update fun s => { s with stdout := s.stdout ++
    ["cas-restore-stream: streaming ".toList ++ REF ++ '@' :: DIGEST ++ " (".toList ++
      (toString ((SIZE.tdiv 1024).tdiv 1024)).toList ++ " MiB compressed) into ".toList ++
      CACHE_DIR] }
  command fun s =>
    let (status, cache) := w.stream REF DIGEST SIZE s.cache
    (status, { s with cache })

/-- A blob with the size and the digest of the manifest was extracted into the cache. -/
structure Extracted (w : Commands C) (REF : Str) (before behind : C) : Prop where
  manifest : (w.manifest REF).1 = 0
  named : (w.digest (w.manifest REF).2).2 ≠ []
  blob : ∃ B : Bytes, (B.length : Int) = (w.size (w.manifest REF).2).2 ∧
    "sha256:".toList ++ w.hexdigest B = (w.digest (w.manifest REF).2).2 ∧
    (w.zstd B).1 = 0 ∧ w.tar (w.zstd B).2 before = (0, behind)

theorem pipefail_eq_zero {statuses : List Nat} : pipefail statuses = 0 ↔ ∀ n ∈ statuses, n = 0 := by
  unfold pipefail
  cases h : statuses.reverse.find? (· ≠ 0) with
  | none => simpa [List.find?_eq_none] using h
  | some n =>
    have hn : n ≠ 0 := by simpa using List.find?_some h
    have hmem : n ∈ statuses := List.mem_reverse.mp (List.mem_of_find?_eq_some h)
    simp only [Option.getD_some]
    exact iff_of_false hn fun hall => hn (hall n hmem)

theorem stream_extracted {w : Commands C} {REF : Str} {c : C} (hmanifest : (w.manifest REF).1 = 0)
    (hnamed : (w.digest (w.manifest REF).2).2 ≠ [])
    (h : (w.stream REF (w.digest (w.manifest REF).2).2 (w.size (w.manifest REF).2).2 c).1 = 0) :
    Extracted w REF c
      (w.stream REF (w.digest (w.manifest REF).2).2 (w.size (w.manifest REF).2).2 c).2 := by
  simp only [Commands.stream, pipefail_eq_zero, List.forall_mem_cons] at h
  obtain ⟨hpython, hzstd, htar, -⟩ := h
  have hpipe : Pipe (w.env REF (w.digest (w.manifest REF).2).2 (w.size (w.manifest REF).2).2) :=
    w.broken
  obtain ⟨hsize, hdigest⟩ := received_whole hpipe (returns_complete hpython)
  exact ⟨hmanifest, hnamed, _, hsize, hdigest, hzstd, Prod.ext htar rfl⟩

theorem restored_extracted (w : Commands C) (REF CACHE_DIR : Str) (s : Cache C) :
    (run (cas_restore_stream w REF CACHE_DIR) s).1 = 0 →
      Extracted w REF s.cache (run (cas_restore_stream w REF CACHE_DIR) s).2.cache := by
  have hexits := zero_of_ne_zero fun t : Cache C => Extracted w REF s.cache t.cache
  refine (run_zero_iff_wp _ _ fun t : Cache C => Extracted w REF s.cache t.cache).mpr ?_
  unfold cas_restore_stream
  simp only [wp_bind, wp_check_of_exits hexits, wp_when, wp_update, wp_exit, wp_command]
  refine fun _ => ⟨fun _ => hexits _ _ one_ne_zero, fun hmanifest _ _ => ?_⟩
  refine ⟨fun _ => hexits _ _ one_ne_zero, fun hnamed => ⟨?_, fun hne h => absurd h hne⟩⟩
  exact stream_extracted (not_not.mp hmanifest) hnamed

theorem unnamed_fails (w : Commands C) (REF CACHE_DIR : Str) (s : Cache C)
    (h : (w.manifest REF).1 ≠ 0 ∨ (w.digest (w.manifest REF).2).2 = []) :
    (run (cas_restore_stream w REF CACHE_DIR) s).1 ≠ 0 ∧
      (run (cas_restore_stream w REF CACHE_DIR) s).2.cache = s.cache := by
  refine (run_iff_wp _ _ fun status (t : Cache C) => status ≠ 0 ∧ t.cache = s.cache).mpr ?_
  unfold cas_restore_stream
  simp only [wp_bind, wp_check, wp_when, wp_update, wp_exit]
  refine ⟨fun _ => ⟨fun _ => ⟨one_ne_zero, trivial⟩, fun hmanifest => ?_⟩,
    fun hmkdir => ⟨hmkdir, trivial⟩⟩
  have hnone := h.resolve_left hmanifest
  refine ⟨fun _ => ⟨fun _ => ⟨fun _ => ⟨one_ne_zero, trivial⟩, fun hnamed => absurd hnone hnamed⟩,
    fun hsize => ⟨hsize, trivial⟩⟩, fun hdigest => ⟨hdigest, trivial⟩⟩

/-- **Exit status 0** of the script says that a blob with the size and the digest that the
manifest names was extracted. A run that finds no manifest or no layer fails and leaves the
cache alone. -/
theorem cas_restore_stream_extracts (w : Commands C) (REF CACHE_DIR : Str) (s : Cache C) :
    ((run (cas_restore_stream w REF CACHE_DIR) s).1 = 0 →
        Extracted w REF s.cache (run (cas_restore_stream w REF CACHE_DIR) s).2.cache) ∧
      ((w.manifest REF).1 ≠ 0 ∨ (w.digest (w.manifest REF).2).2 = [] →
        (run (cas_restore_stream w REF CACHE_DIR) s).1 ≠ 0 ∧
          (run (cas_restore_stream w REF CACHE_DIR) s).2.cache = s.cache) :=
  ⟨restored_extracted w REF CACHE_DIR s, unnamed_fails w REF CACHE_DIR s⟩

end Script

/-! ## The step of the build -/

/-- What the commands of the step answer. -/
structure MergeCommands (C : Type) where
  /-- `BASE` -/
  base : Str
  mkdir : Nat
  /-- What `jq -r '.[]'` prints of `MATRIX_KEYS`. -/
  chunks : List Str
  /-- `jq -r --arg c "$chunk" '.[$c] // empty'` of `CACHE_KEYS` -/
  cacheKey : Str → Nat × Str
  /-- The `n`-th `df -h /; du -sh`. -/
  usage : Nat → Nat
  /-- The commands of the `n`-th run of the script. -/
  restore : Nat → Commands C
  /-- `~/.cache/buildstream` -/
  cacheDir : Str

/-- A run of the script: its reference, its status, and the cache before and behind it. -/
structure Restored (C : Type) where
  ref : Str
  status : Nat
  before : C
  behind : C

structure Merge (C : Type) where
  cache : C
  runs : List (Restored C) := []
  /-- What the step warns of. -/
  warned : List Str := []
  usages : Nat := 0

section Merge

variable {C : Type}

/-- A run of the script in a condition: whether it succeeds. -/
def restore (m : MergeCommands C) (ref : Str) : Script (Merge C) Bool :=
  modifyGet fun s =>
    let (status, t) := run (cas_restore_stream (m.restore s.runs.length) ref m.cacheDir)
      { cache := s.cache }
    (status == 0, { s with cache := t.cache, runs := s.runs ++ [⟨ref, status, s.cache, t.cache⟩] })

def warn (name : Str) : Script (Merge C) Unit :=
  update fun s => { s with warned := s.warned ++ [name] }

/-- `df -h /; du -sh ~/.cache/buildstream` -/
def usage (m : MergeCommands C) : Script (Merge C) Unit :=
  command fun s => (m.usage s.usages, { s with usages := s.usages + 1 })

/-- `"${BASE}-${chunk}:${tag}"` -/
def MergeCommands.ref (m : MergeCommands C) (chunk tag : Str) : Str :=
  m.base ++ '-' :: (chunk ++ ':' :: tag)

/-- `[ -n "$CACHE_KEY" ] && scripts/cas-restore-stream.sh "${BASE}-${chunk}:${CACHE_KEY}"` -/
def restoreKeyed (m : MergeCommands C) (chunk CACHE_KEY : Str) : Script (Merge C) Bool :=
  if CACHE_KEY ≠ [] then restore m (m.ref chunk CACHE_KEY) else pure false

/-- The `elif` behind it. -/
def restoreLatest (m : MergeCommands C) (chunk : Str) (keyed : Bool) : Script (Merge C) Bool :=
  if keyed then pure true else restore m (m.ref chunk "latest".toList)

/-- The body of the loop over the chunks. -/
def mergeChunk (m : MergeCommands C) (chunk : Str) : Script (Merge C) Unit := do
  check (m.cacheKey chunk).1
  let CACHE_KEY := (m.cacheKey chunk).2
  let keyed ← restoreKeyed m chunk CACHE_KEY
  let restored ← restoreLatest m chunk keyed
  when (restored = false) (warn chunk)
  usage m

def mergeLoop (m : MergeCommands C) : List Str → Script (Merge C) Unit
  | [] => pure ()
  | chunk :: chunks => do
    mergeChunk m chunk
    mergeLoop m chunks

/-- `Download and Merge CAS Chunks` -/
def merge (m : MergeCommands C) : Script (Merge C) Unit := do
  check m.mkdir
  let core ← restore m (m.ref "core".toList "latest".toList)
  when (core = false) (warn "core".toList)
  usage m
  mergeLoop m m.chunks

/-- The runs of the script lead from one cache to the other, and each that succeeded extracted a
blob with the size and the digest of its manifest. -/
inductive Restores (m : MergeCommands C) (start : C) : List (Restored C) → C → Prop
  | nil : Restores m start [] start
  | snoc {runs : List (Restored C)} {r : Restored C} (h : Restores m start runs r.before)
      (hextracted : r.status = 0 → Extracted (m.restore runs.length) r.ref r.before r.behind) :
      Restores m start (runs ++ [r]) r.behind

/-- The key of a chunk, if it has one. -/
def MergeCommands.keyTags (m : MergeCommands C) (chunk : Str) : List Str :=
  if (m.cacheKey chunk).2 ≠ [] then [(m.cacheKey chunk).2] else []

/-- The tags under which the step looks for a chunk. -/
def MergeCommands.tags (m : MergeCommands C) (chunk : Str) : List Str :=
  m.keyTags chunk ++ ["latest".toList]

/-- A run for the chunk under one of the tags has succeeded. -/
def Found (m : MergeCommands C) (tags : List Str) (chunk : Str) (s : Merge C) : Prop :=
  ∃ tag ∈ tags, ∃ r ∈ s.runs, r.status = 0 ∧ r.ref = m.ref chunk tag

/-- A run for the chunk has failed under each of the tags. -/
def Missing (m : MergeCommands C) (tags : List Str) (chunk : Str) (s : Merge C) : Prop :=
  ∀ tag ∈ tags, ∃ r ∈ s.runs, r.status ≠ 0 ∧ r.ref = m.ref chunk tag

/-- The step has a chunk, or it has warned of it and looked for it under all its tags. -/
def Settled (m : MergeCommands C) (tags : List Str) (chunk : Str) (s : Merge C) : Prop :=
  Found m tags chunk s ∨ chunk ∈ s.warned ∧ Missing m tags chunk s

/-- Nothing that was run or said is taken back. -/
structure Extends (s t : Merge C) : Prop where
  runs : s.runs <+: t.runs
  warned : s.warned <+: t.warned

theorem Extends.refl (s : Merge C) : Extends s s := ⟨List.prefix_rfl, List.prefix_rfl⟩

theorem Extends.trans {s t u : Merge C} (h : Extends s t) (h' : Extends t u) : Extends s u :=
  ⟨h.runs.trans h'.runs, h.warned.trans h'.warned⟩

theorem Found.mono {m : MergeCommands C} {tags tags' : List Str} {chunk : Str} {s t : Merge C}
    (h : Found m tags chunk s) (htags : tags ⊆ tags') (hext : Extends s t) :
    Found m tags' chunk t := by
  obtain ⟨tag, htag, r, hr, hrest⟩ := h
  exact ⟨tag, htags htag, r, hext.runs.subset hr, hrest⟩

theorem Missing.mono {m : MergeCommands C} {tags : List Str} {chunk : Str} {s t : Merge C}
    (h : Missing m tags chunk s) (hext : Extends s t) : Missing m tags chunk t := by
  intro tag htag
  obtain ⟨r, hr, hrest⟩ := h tag htag
  exact ⟨r, hext.runs.subset hr, hrest⟩

theorem Settled.mono {m : MergeCommands C} {tags : List Str} {chunk : Str} {s t : Merge C}
    (h : Settled m tags chunk s) (hext : Extends s t) : Settled m tags chunk t := by
  rcases h with hfound | ⟨hwarned, hmissing⟩
  · exact .inl (hfound.mono (List.Subset.refl tags) hext)
  · exact .inr ⟨hext.warned.subset hwarned, hmissing.mono hext⟩

/-- How far the step has got with a chunk. -/
structure Sought (m : MergeCommands C) (tags : List Str) (chunk : Str) (restored : Bool)
    (s : Merge C) : Prop where
  found : restored = true → Found m tags chunk s
  missing : restored = false → Missing m tags chunk s

/-- One more tag. -/
theorem Sought.concat {m : MergeCommands C} {tags : List Str} {chunk tag : Str} {s t : Merge C}
    {r : Restored C} (h : Missing m tags chunk s) (hext : Extends s t) (hr : r ∈ t.runs)
    (href : r.ref = m.ref chunk tag) : Sought m (tags ++ [tag]) chunk (r.status == 0) t := by
  constructor
  · intro hok
    exact ⟨tag, List.mem_append_right _ (List.mem_singleton_self tag), r, hr, beq_iff_eq.mp hok,
      href⟩
  · intro hfailed tag' htag'
    rcases List.mem_append.mp htag' with hbefore | hlast
    · exact h.mono hext tag' hbefore
    · obtain rfl := List.mem_singleton.mp hlast
      exact ⟨r, hr, beq_eq_false_iff_ne.mp hfailed, href⟩

section Rules

variable {m : MergeCommands C} {start : C} {s : Merge C} {exits : Nat → Merge C → Prop}

/-- A run of the script adds one run, and says whether it succeeded. -/
theorem wp_restore {ref : Str} {next : Bool → Merge C → Prop} (hs : Restores m start s.runs s.cache)
    (hnext : ∀ (r : Restored C) (t : Merge C), r.ref = ref → t.runs = s.runs ++ [r] →
      t.warned = s.warned → Restores m start t.runs t.cache → next (r.status == 0) t) :
    wp (restore m ref) next exits s := by
  have hextracts := restored_extracted (m.restore s.runs.length) ref m.cacheDir
    { cache := s.cache }
  exact hnext ⟨ref, _, s.cache, _⟩ _ rfl rfl rfl (.snoc hs hextracts)

theorem wp_restore_iff {ref : Str} {next : Bool → Merge C → Prop} {status : Nat} {cache : C}
    (h : (run (cas_restore_stream (m.restore s.runs.length) ref m.cacheDir)
        { cache := s.cache }).1 = status ∧
      (run (cas_restore_stream (m.restore s.runs.length) ref m.cacheDir)
        { cache := s.cache }).2.cache = cache) :
    wp (restore m ref) next exits s ↔
      next (status == 0)
        { s with cache, runs := s.runs ++ [⟨ref, status, s.cache, cache⟩] } := by
  obtain ⟨rfl, rfl⟩ := h
  exact Iff.rfl

theorem wp_warn (name : Str) {next : Unit → Merge C → Prop} :
    wp (warn name) next exits s ↔ next () { s with warned := s.warned ++ [name] } := Iff.rfl

theorem wp_usage {next : Unit → Merge C → Prop} (husage : ∀ n, m.usage n = 0) :
    wp (usage m) next exits s ↔ next () { s with usages := s.usages + 1 } := by
  simp [usage, husage]

/-- The run under the key of the chunk, if it has one. -/
theorem wp_keyed (hs : Restores m start s.runs s.cache) (chunk : Str) :
    wp (restoreKeyed m chunk (m.cacheKey chunk).2)
      (fun keyed t => Restores m start t.runs t.cache ∧ Extends s t ∧
        Sought m (m.keyTags chunk) chunk keyed t) exits s := by
  rw [restoreKeyed, wp_ite, wp_pure]
  constructor
  · intro hkey
    refine wp_restore hs fun r t href hruns hwarned ht => ?_
    have hext : Extends s t := ⟨hruns ▸ List.prefix_append _ _, hwarned ▸ List.prefix_rfl⟩
    have hmem : r ∈ t.runs := hruns ▸ List.mem_append_right _ (List.mem_singleton_self r)
    rw [MergeCommands.keyTags, if_pos hkey]
    have hnone : Missing m [] chunk s := by simp [Missing]
    exact ⟨ht, hext, .concat hnone hext hmem href⟩
  · intro hkey
    rw [MergeCommands.keyTags, if_neg hkey]
    exact ⟨hs, .refl s, by simp, by simp [Missing]⟩

/-- The run under `latest`, if there is no chunk yet. -/
theorem wp_latest (hs : Restores m start s.runs s.cache) {tags : List Str} {chunk : Str}
    {keyed : Bool} (hkeyed : Sought m tags chunk keyed s) :
    wp (restoreLatest m chunk keyed)
      (fun restored t => Restores m start t.runs t.cache ∧ Extends s t ∧
        Sought m (tags ++ ["latest".toList]) chunk restored t) exits s := by
  rw [restoreLatest, wp_ite, wp_pure]
  constructor
  · intro h
    refine ⟨hs, .refl s, fun _ => ?_, by simp⟩
    exact (hkeyed.found h).mono (List.subset_append_left _ _) (.refl s)
  · intro h
    refine wp_restore hs fun r t href hruns hwarned ht => ?_
    have hext : Extends s t := ⟨hruns ▸ List.prefix_append _ _, hwarned ▸ List.prefix_rfl⟩
    have hmem : r ∈ t.runs := hruns ▸ List.mem_append_right _ (List.mem_singleton_self r)
    exact ⟨ht, hext, .concat (hkeyed.missing (by simpa using h)) hext hmem href⟩

/-- The warning, if there is no chunk. -/
theorem wp_unless_restored (hs : Restores m start s.runs s.cache) {tags : List Str} {chunk : Str}
    {restored : Bool} (hrestored : Sought m tags chunk restored s)
    (husage : ∀ n, m.usage n = 0) :
    wp (do when (restored = false) (warn chunk); usage m)
      (fun _ t => Restores m start t.runs t.cache ∧ Extends s t ∧ Settled m tags chunk t)
      exits s := by
  rw [wp_bind, wp_when, wp_warn, wp_usage husage, wp_usage husage]
  constructor
  · intro hno
    refine ⟨hs, ⟨List.prefix_rfl, List.prefix_append _ _⟩, .inr ⟨?_, hrestored.missing hno⟩⟩
    exact List.mem_append_right _ (List.mem_singleton_self chunk)
  · intro hyes
    refine ⟨hs, ⟨List.prefix_rfl, List.prefix_rfl⟩, .inl ?_⟩
    exact hrestored.found (by simpa using hyes)

theorem mergeChunk_settles (hkeys : ∀ c, (m.cacheKey c).1 = 0) (husage : ∀ n, m.usage n = 0)
    (hs : Restores m start s.runs s.cache) (chunk : Str) :
    wp (mergeChunk m chunk)
      (fun _ t => Restores m start t.runs t.cache ∧ Extends s t ∧ Settled m (m.tags chunk) chunk t)
      exits s := by
  rw [mergeChunk, wp_bind, wp_check]
  refine ⟨fun _ => ?_, fun h => absurd (hkeys chunk) h⟩
  rw [wp_bind]
  refine wp_mono (wp_keyed hs chunk) ?_
  rintro keyed t ⟨ht, hst, hkeyed⟩
  rw [wp_bind]
  refine wp_mono (wp_latest ht hkeyed) ?_
  rintro restored u ⟨hu, htu, hrestored⟩
  refine wp_mono (wp_unless_restored hu hrestored husage) ?_
  rintro - v ⟨hv, huv, hsettled⟩
  exact ⟨hv, (hst.trans htu).trans huv, hsettled⟩

theorem mergeLoop_settles (hkeys : ∀ c, (m.cacheKey c).1 = 0) (husage : ∀ n, m.usage n = 0)
    (chunks : List Str) (hs : Restores m start s.runs s.cache) :
    wp (mergeLoop m chunks)
      (fun _ t => Restores m start t.runs t.cache ∧ Extends s t ∧
        ∀ chunk ∈ chunks, Settled m (m.tags chunk) chunk t) exits s := by
  induction chunks generalizing s with
  | nil => exact ⟨hs, .refl s, by simp⟩
  | cons chunk chunks ih =>
    rw [mergeLoop, wp_bind]
    refine wp_mono (mergeChunk_settles hkeys husage hs chunk) ?_
    rintro - t ⟨ht, hst, hsettled⟩
    refine wp_mono (ih ht) ?_
    rintro - u ⟨hu, htu, hall⟩
    refine ⟨hu, hst.trans htu, ?_⟩
    rintro c (_ | ⟨_, hc⟩)
    · exact hsettled.mono htu
    · exact hall c hc

end Rules

/-- **Merging the chunks.** Whatever the registry does, the step succeeds when its own commands
do. Behind it each chunk of the matrix has been extracted, from a blob with the size and the
digest of the manifest under its key or under `latest`, or the step has warned of it and the runs
under both had failed; of the core this holds with `latest` alone. The runs of the script make up
the whole way from the old cache to the new one. -/
theorem merge_certified (m : MergeCommands C) (start : C) (hmkdir : m.mkdir = 0)
    (hkeys : ∀ c, (m.cacheKey c).1 = 0) (husage : ∀ n, m.usage n = 0) :
    (run (merge m) { cache := start }).1 = 0 ∧
      Restores m start (run (merge m) { cache := start }).2.runs
        (run (merge m) { cache := start }).2.cache ∧
      Settled m ["latest".toList] "core".toList (run (merge m) { cache := start }).2 ∧
      ∀ chunk ∈ m.chunks, Settled m (m.tags chunk) chunk (run (merge m) { cache := start }).2 := by
  refine (run_iff_wp _ _ fun status (t : Merge C) => status = 0 ∧
    Restores m start t.runs t.cache ∧ Settled m ["latest".toList] "core".toList t ∧
      ∀ chunk ∈ m.chunks, Settled m (m.tags chunk) chunk t).mpr ?_
  rw [merge, wp_bind, wp_check]
  refine ⟨fun _ => ?_, fun h => absurd hmkdir h⟩
  rw [wp_bind]
  have hnone : Sought m [] "core".toList false { cache := start } := ⟨by simp, by simp [Missing]⟩
  have hlatest : restore m (m.ref "core".toList "latest".toList) =
      restoreLatest m "core".toList false := rfl
  rw [hlatest]
  refine wp_mono (wp_latest .nil hnone) ?_
  rintro core t ⟨ht, -, hrestored⟩
  rw [← bind_assoc, wp_bind]
  refine wp_mono (wp_unless_restored ht hrestored husage) ?_
  rintro - u ⟨hu, -, hcore⟩
  refine wp_mono (mergeLoop_settles hkeys husage m.chunks hu) ?_
  rintro - v ⟨hv, huv, hall⟩
  exact ⟨rfl, hv, hcore.mono huv, hall⟩

end Merge

/-! ## A registry with one artifact -/

/-- A reference of the registry. -/
def abcRef : Str := "ghcr.io/tuna-os/xfce-linux/cache-xfce-linux-chunk3-popt:1f0c".toList

/-- The registry has the blob `abc` under one reference, and the transfer is cut and resumed. -/
def abcCommands : Commands Bytes where
  mkdir := 0
  manifest REF := if REF = abcRef then (0, []) else (1, "not found".toList)
  digest _ := (0, cutOnce.digest)
  size _ := (0, 3)
  hexdigest := cutOnce.hexdigest
  bearer := cutOnce.bearer
  server := cutOnce.server
  sink := cutOnce.sink
  flush := cutOnce.flush
  zstd bytes := (0, bytes)
  tar bytes cache := (0, cache ++ bytes)
  broken _ _ _ h := by cases h

theorem stream_abc (cache : Bytes) :
    abcCommands.stream abcRef cutOnce.digest 3 cache = (0, cache ++ abc) := by
  have hend : (runFor (step (abcCommands.env abcRef cutOnce.digest 3)) 30 init).pc =
      .done (.exit 0) := by decide
  have hout : (runFor (step (abcCommands.env abcRef cutOnce.digest 3)) 30 init).out = abc := by
    decide
  have hcomplete := complete_eq (steps_runFor 30 init) (halted_iff.mpr ⟨_, hend⟩)
  simp only [Commands.stream, hcomplete, hout, St.status, hend]
  rfl

theorem run_abc (CACHE_DIR : Str) (cache : Bytes) :
    (run (cas_restore_stream abcCommands abcRef CACHE_DIR) { cache }).1 = 0 ∧
      (run (cas_restore_stream abcCommands abcRef CACHE_DIR) { cache }).2.cache = cache ++ abc := by
  refine (run_iff_wp _ _ fun status (t : Cache Bytes) => status = 0 ∧ t.cache = cache ++ abc).mpr ?_
  have hmanifest : abcCommands.manifest abcRef = (0, []) := by
    simp only [abcCommands, if_true]
  have hmkdir : abcCommands.mkdir = 0 := rfl
  have hdigest : abcCommands.digest [] = (0, cutOnce.digest) := rfl
  have hsize : abcCommands.size [] = (0, 3) := rfl
  have hnamed : cutOnce.digest ≠ [] := by decide
  unfold cas_restore_stream
  simp [hmanifest, hmkdir, hdigest, hsize, hnamed, stream_abc]

theorem run_missing {REF : Str} (hREF : REF ≠ abcRef) (CACHE_DIR : Str) (cache : Bytes) :
    (run (cas_restore_stream abcCommands REF CACHE_DIR) { cache }).1 = 1 ∧
      (run (cas_restore_stream abcCommands REF CACHE_DIR) { cache }).2.cache = cache := by
  refine (run_iff_wp _ _ fun status (t : Cache Bytes) => status = 1 ∧ t.cache = cache).mpr ?_
  have hmanifest : abcCommands.manifest REF = (1, "not found".toList) := by
    simp only [abcCommands, if_neg hREF]
  have hmkdir : abcCommands.mkdir = 0 := rfl
  unfold cas_restore_stream
  simp [hmanifest, hmkdir]

/-- A build with two chunks, for one of which the registry has the artifact. -/
def oneChunk : MergeCommands Bytes where
  base := "ghcr.io/tuna-os/xfce-linux/cache-xfce-linux".toList
  mkdir := 0
  chunks := ["chunk3-popt".toList, "chunk4-gcc".toList]
  cacheKey _ := (0, "1f0c".toList)
  usage _ := 0
  restore _ := abcCommands
  cacheDir := "/root/.cache/buildstream".toList

section

variable {next : Bool → Merge Bytes → Prop} {exits : Nat → Merge Bytes → Prop} {s : Merge Bytes}

theorem wp_restore_abc {ref : Str} (href : ref = abcRef) :
    wp (restore oneChunk ref) next exits s ↔
      next true { s with
        cache := s.cache ++ abc, runs := s.runs ++ [⟨ref, 0, s.cache, s.cache ++ abc⟩] } := by
  have hcommands : oneChunk.restore s.runs.length = abcCommands := rfl
  subst href
  rw [wp_restore_iff (by rw [hcommands]; exact run_abc oneChunk.cacheDir s.cache)]
  rfl

theorem wp_restore_missing {ref : Str} (href : ref ≠ abcRef) :
    wp (restore oneChunk ref) next exits s ↔
      next false { s with runs := s.runs ++ [⟨ref, 1, s.cache, s.cache⟩] } := by
  have hcommands : oneChunk.restore s.runs.length = abcCommands := rfl
  rw [wp_restore_iff (by rw [hcommands]; exact run_missing href oneChunk.cacheDir s.cache)]
  rfl

end

/-- The step that finds one of the two chunks. -/
def merged : Merge Bytes := (run (merge oneChunk) { cache := [] }).2

theorem merged_eq : merged.cache = abc ∧ merged.warned = ["core".toList, "chunk4-gcc".toList] := by
  refine (run_iff_wp _ _ fun _ (t : Merge Bytes) =>
    t.cache = abc ∧ t.warned = ["core".toList, "chunk4-gcc".toList]).mpr ?_
  have hmkdir : oneChunk.mkdir = 0 := rfl
  have hchunks : oneChunk.chunks = ["chunk3-popt".toList, "chunk4-gcc".toList] := rfl
  have hkey (chunk : Str) : oneChunk.cacheKey chunk = (0, "1f0c".toList) := rfl
  have hne : "1f0c".toList ≠ [] := by decide
  have habc : oneChunk.ref "chunk3-popt".toList "1f0c".toList = abcRef := by decide
  have hcore : oneChunk.ref "core".toList "latest".toList ≠ abcRef := by decide
  have hgcc : oneChunk.ref "chunk4-gcc".toList "1f0c".toList ≠ abcRef := by decide
  have hlatest : oneChunk.ref "chunk4-gcc".toList "latest".toList ≠ abcRef := by decide
  have husage (n : Nat) : oneChunk.usage n = 0 := rfl
  simp [-String.reduceToList, merge, mergeLoop, mergeChunk, restoreKeyed, restoreLatest, hmkdir,
    hchunks, hkey, hne, wp_restore_abc habc, wp_restore_missing hcore, wp_restore_missing hgcc,
    wp_restore_missing hlatest, wp_warn, wp_usage husage]

/-- The core is in the registry under no tag, one of the chunks under its key alone, and the
other one not at all. -/
theorem merge_certified_oneChunk :
    merged.cache = abc ∧ merged.warned = ["core".toList, "chunk4-gcc".toList] ∧
      Settled oneChunk ["latest".toList] "core".toList merged ∧
      ∀ chunk ∈ oneChunk.chunks, Settled oneChunk ["1f0c".toList, "latest".toList] chunk merged :=
  have hmerged := merge_certified oneChunk [] rfl (fun _ => rfl) fun _ => rfl
  ⟨merged_eq.1, merged_eq.2, hmerged.2.2⟩

end XfceLinux.Ghcr
