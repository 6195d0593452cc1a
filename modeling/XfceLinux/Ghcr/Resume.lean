import XfceLinux.Ghcr.Moves

/-!
# Resuming is gapless and free of duplicates

With a registry that serves the blob `B` (`Download`), stdout holds at every moment the
first `offset` bytes of `B`, and the running sha256 has consumed them. The invariant
(`Resumed`) says this for the moments between `out.write(buf)` and `offset += len(buf)`
too, where stdout and then the hash are ahead of `offset` by `buf`, and carries what the
open response will still deliver.
-/

namespace XfceLinux.Ghcr

open Lib.Text Lib.Machine

/-- An answer that serves `B`: an error, or the requested range of `B`, cut anywhere. -/
def Serves (B : Bytes) (req : Request) : Answer → Prop
  | .raise _ => True
  | .ok resp =>
    match req.range with
    | none => resp.body <+: B
    | some o => resp.status = 206 ∧ resp.body <+: B.drop o

/-- A run of `main` for the blob `B` in which only the registry can fail. -/
structure Download (env : Env) (B : Bytes) : Prop where
  size : env.size = B.length
  digest : env.digest = "sha256:".toList ++ env.hexdigest B
  server : ∀ n req, Serves B req (env.server n req)
  bearer : ∀ n, (env.bearer n).isSome
  sink : ∀ n, env.sink n = none
  flush : env.flush = true

/-- How far stdout is ahead of `offset`. -/
def St.outAhead (s : St) : Nat :=
  match s.pc with
  | .update _ buf | .advance _ buf => buf.length
  | _ => 0

/-- How far the running sha256 is ahead of `offset`. -/
def St.shaAhead (s : St) : Nat :=
  match s.pc with
  | .advance _ buf => buf.length
  | _ => 0

/-- The bytes of the open response that `offset` does not count yet. -/
def St.upcoming (s : St) : Bytes :=
  match s.pc with
  | .inner resp => resp.body
  | .write resp buf | .update resp buf | .advance resp buf => buf ++ resp.body
  | _ => []

/-- The invariant of a download of `B`. -/
structure Resumed (B : Bytes) (s : St) : Prop where
  out : s.out = B.take (s.offset + s.outAhead)
  sha : s.sha = B.take (s.offset + s.shaAhead)
  upcoming : s.upcoming <+: B.drop s.offset
  offset_le : s.offset ≤ B.length
  /-- At the checks after the loop the whole blob has been read. -/
  finish : s.pc = .finish → s.offset = B.length
  exit : ∀ o, s.pc = .done o → ∃ rc, o = .exit rc ∧ (rc = 0 ↔ s.out = B)

theorem body_read {r r' : Response} {n : Nat} {buf : Bytes} (h : r.read n = .ok (buf, r')) :
    buf ++ r'.body = r.body := by
  unfold Response.read at h
  split at h
  · rename_i hp
    split at h <;> cases h
    simp [Response.body, hp]
  · rename_i p ps hp
    cases h
    simp only [Response.body, hp, List.flatten_cons]
    split
    · rename_i hd
      have hp' := List.take_append_drop n p
      rw [hd, List.append_nil] at hp'
      rw [hp']
    · rw [List.flatten_cons, ← List.append_assoc, List.take_append_drop]

/-- The response to the next request of `main` delivers `B` from `offset` on. -/
theorem Download.opened {env : Env} {B : Bytes} (hd : Download env B) {s : St}
    {resp : Response} (h : env.server s.requests (request env s) = .ok resp) :
    resp.body <+: B.drop s.offset ∧ (s.offset ≠ 0 → resp.status = 206) := by
  have hserves := hd.server s.requests (request env s)
  rw [h] at hserves
  by_cases hoff : s.offset = 0
  · simp only [Serves, request, hoff, ne_eq, not_true_eq_false, if_false] at hserves
    simpa [hoff] using hserves
  · simp only [Serves, request, hoff, ne_eq, not_false_eq_true, if_true] at hserves
    exact ⟨hserves.2, fun _ => hserves.1⟩

theorem take_append_of_prefix {B u v : Bytes} {k : Nat} (h : u ++ v <+: B.drop k) :
    B.take k ++ u = B.take (k + u.length) := by
  rw [List.take_add, ← List.prefix_iff_eq_take.mp ((List.prefix_append u v).trans h)]

theorem length_le_of_prefix_drop {B u v : Bytes} {k : Nat} (h : u ++ v <+: B.drop k)
    (hk : k ≤ B.length) : k + u.length ≤ B.length := by
  have := h.length_le
  simp only [List.length_append, List.length_drop] at this
  omega

theorem prefix_drop_add {B u v : Bytes} {k : Nat} (h : u ++ v <+: B.drop k) :
    v <+: B.drop (k + u.length) := by
  obtain ⟨w, hw⟩ := h
  refine ⟨w, ?_⟩
  rw [← List.drop_drop, ← hw, List.append_assoc, List.drop_left]

theorem Resumed.idle {B : Bytes} {s t : St} (h : Resumed B s) (hout : s.outAhead = 0)
    (hsha : s.shaAhead = 0) (ho : t.out = s.out) (hs : t.sha = s.sha)
    (hoff : t.offset = s.offset) (hpc : t.pc = .outer ∨ t.pc = .connect ∨
      ∃ exc, t.pc = .caught exc) : Resumed B t := by
  have hout' := h.out
  have hsha' := h.sha
  rw [hout] at hout'
  rw [hsha] at hsha'
  rcases hpc with hpc | hpc | ⟨exc, hpc⟩ <;>
    exact
      { out := by simpa [St.outAhead, hpc, ho, hoff] using hout'
        sha := by simpa [St.shaAhead, hpc, hs, hoff] using hsha'
        upcoming := by simp [St.upcoming, hpc]
        offset_le := hoff ▸ h.offset_le
        finish := by simp [hpc]
        exit := by simp [hpc] }

theorem Resumed.move {env : Env} {B : Bytes} (hd : Download env B) {s t : St}
    (h : Resumed B s) (hMove : Move env s t) : Resumed B t := by
  have hparts := h
  obtain ⟨hout, hsha, hup, hle, hfin, hexit⟩ := hparts
  cases hMove with
  | token hpc =>
    rcases hpc with hpc | hpc <;>
      exact h.idle (by simp [St.outAhead, hpc]) (by simp [St.shaAhead, hpc]) rfl rfl rfl
        (.inl rfl)
  | noToken hpc hnone =>
    have := hd.bearer s.bearers
    rw [hnone] at this
    cases this
  | giveUp hpc hlt hmax =>
    simp only [St.outAhead, hpc, Nat.add_zero] at hout
    rw [hd.size] at hlt
    refine ⟨hout, by simpa [St.shaAhead, hpc] using hsha, by simp [St.upcoming], hle,
      by simp, ?_⟩
    intro o ho
    cases ho
    refine ⟨1, rfl, by simp, fun hB => ?_⟩
    have := congrArg List.length (hout.symm.trans hB)
    simp only [List.length_take] at this
    omega
  | attempt hpc =>
    exact h.idle (by simp [St.outAhead, hpc]) (by simp [St.shaAhead, hpc]) rfl rfl rfl
      (.inr (.inl rfl))
  | leave hpc hge =>
    rw [hd.size] at hge
    exact ⟨by simpa [St.outAhead, hpc] using hout, by simpa [St.shaAhead, hpc] using hsha,
      by simp [St.upcoming], hle, fun _ => by dsimp only; omega, by simp⟩
  | refused hpc | readRaised hpc =>
    exact h.idle (by simp [St.outAhead, hpc]) (by simp [St.shaAhead, hpc]) rfl rfl rfl
      (.inr (.inr ⟨_, rfl⟩))
  | @notPartial resp hpc hans hoff hstatus =>
    -- a registry that serves `B` answers a resume request with 206
    exact absurd ((hd.opened hans).2 hoff) hstatus
  | @opened resp hpc hans hok =>
    exact ⟨by simpa [St.outAhead, hpc] using hout, by simpa [St.shaAhead, hpc] using hsha,
      (hd.opened hans).1, hle, by simp, by simp⟩
  | complete hpc | readEmpty hpc | retried hpc =>
    exact h.idle (by simp [St.outAhead, hpc]) (by simp [St.shaAhead, hpc]) rfl rfl rfl
      (.inl rfl)
  | readSome hpc hlt hread hbuf =>
    refine ⟨by simpa [St.outAhead, hpc] using hout, by simpa [St.shaAhead, hpc] using hsha,
      ?_, hle, by simp, by simp⟩
    simpa only [St.upcoming, hpc, body_read hread] using hup
  | wrote hpc hsink =>
    simp only [St.upcoming, St.outAhead, St.shaAhead, hpc, Nat.add_zero] at hup hout hsha
    refine ⟨?_, by simpa [St.shaAhead] using hsha, hup, hle, by simp, by simp⟩
    simp only [St.outAhead]
    rw [hout, take_append_of_prefix hup]
  | writeRaised hpc hsink =>
    rw [hd.sink] at hsink
    cases hsink
  | hashed hpc =>
    simp only [St.upcoming, St.outAhead, St.shaAhead, hpc, Nat.add_zero] at hup hout hsha
    refine ⟨by simpa only [St.outAhead] using hout, ?_, hup, hle, by simp, by simp⟩
    simp only [St.shaAhead]
    rw [hsha, take_append_of_prefix hup]
  | advanced hpc =>
    simp only [St.upcoming, St.outAhead, St.shaAhead, hpc] at hup hout hsha
    exact ⟨by simpa [St.outAhead] using hout, by simpa [St.shaAhead] using hsha,
      prefix_drop_add hup, length_le_of_prefix_drop hup hle, by simp, by simp⟩
  | flushRaised hpc hflush =>
    rw [hd.flush] at hflush
    cases hflush
  | wrongSize hpc hflush hsize =>
    rw [hd.size] at hsize
    exact absurd (congrArg Nat.cast (hfin hpc)) hsize
  | wrongDigest hpc hflush hsize hdigest =>
    have hB : s.sha = B := by simpa [St.shaAhead, hpc, hfin hpc] using hsha
    rw [hB] at hdigest
    exact absurd hd.digest.symm hdigest
  | verified hpc =>
    have hB : s.out = B := by simpa [St.outAhead, hpc, hfin hpc] using hout
    refine ⟨by simpa [St.outAhead, hpc] using hout, by simpa [St.shaAhead, hpc] using hsha,
      by simp [St.upcoming], hle, by simp, ?_⟩
    intro o ho
    cases ho
    exact ⟨0, rfl, by simp [hB]⟩

theorem resumed_moment {env : Env} {B : Bytes} (hd : Download env B) {s : St}
    (h : Moment env s) : Resumed B s :=
  h.invariant
    ⟨rfl, rfl, by simp [St.upcoming, init], Nat.zero_le _, by simp [init], by simp [init]⟩
    fun _ _ => Resumed.move hd

/-! ## The download -/

/-- `bs` is exactly the first `n` bytes of `B`. -/
def FirstBytes (B bs : Bytes) (n : Nat) : Prop := bs = B.take n ∧ n ≤ B.length

/-- What stdout and the running sha256 have received at a moment of a download of `B`. -/
def Gapless (B : Bytes) (s : St) : Prop :=
  match s.pc with
  | .update _ buf => FirstBytes B s.out (s.offset + buf.length) ∧ FirstBytes B s.sha s.offset
  | .advance _ buf =>
    FirstBytes B s.out (s.offset + buf.length) ∧ FirstBytes B s.sha (s.offset + buf.length)
  | _ => FirstBytes B s.out s.offset ∧ FirstBytes B s.sha s.offset

theorem Resumed.gapless {B : Bytes} {s : St} (h : Resumed B s) : Gapless B s := by
  obtain ⟨hout, hsha, hup, hle, -, -⟩ := h
  cases hpc : s.pc with
  | update resp buf | advance resp buf =>
    simp only [St.outAhead, St.shaAhead, St.upcoming, hpc, Nat.add_zero] at hout hsha hup
    have := length_le_of_prefix_drop hup hle
    simp only [Gapless, hpc, FirstBytes]
    exact ⟨⟨hout, this⟩, hsha, by omega⟩
  | _ =>
    simp only [St.outAhead, St.shaAhead, hpc, Nat.add_zero] at hout hsha
    simp only [Gapless, hpc, FirstBytes]
    exact ⟨⟨hout, hle⟩, hsha, hle⟩

theorem notPartial_returns {env : Env} {s : St} {resp : Response} (hs : Moment env s)
    (hpc : s.pc = .connect) (hoff : s.offset ≠ 0)
    (hans : env.server s.requests (request env s) = .ok resp) (hstatus : resp.status ≠ 206) :
    ∃ t, Returns env 1 t ∧ t.out = s.out := by
  have hstep : step env s = some (connectStep env s) := by simp only [step, hpc]
  have hend : connectStep env s =
      { s with pc := .done (.exit 1), requests := s.requests + 1 } := by
    simp only [connectStep, hans]
    rw [if_pos ⟨hoff, hstatus⟩]
  rw [hend] at hstep
  exact ⟨_, ⟨hs.tail hstep, rfl⟩, rfl⟩

/-- **The download of `B`.** Stdout and the hash are gapless at every moment, at most 40
requests are made, and `main` returns 0 exactly when all of `B` was written; an answer to
a resume request with another success status than 206 makes it return 1 as it stands. -/
theorem download_gapless :
    (∀ (env : Env) (B : Bytes), Download env B →
      (∀ s, Moment env s → Gapless B s ∧ s.requests ≤ 40) ∧
      (∃ rc s, Returns env rc s) ∧
      ∀ rc s, Returns env rc s → (rc = 0 ↔ s.out = B)) ∧
    ∀ (env : Env) (s : St) (resp : Response), Moment env s → s.pc = .connect →
      s.offset ≠ 0 → env.server s.requests (request env s) = .ok resp →
      resp.status ≠ 206 → ∃ t, Returns env 1 t ∧ t.out = s.out := by
  refine ⟨fun env B hd => ⟨fun s hs => ⟨(resumed_moment hd hs).gapless, requests_le hs⟩, ?_, ?_⟩,
    fun env s resp => notPartial_returns⟩
  · obtain ⟨s, o, hs, ho⟩ := exists_done env
    obtain ⟨rc, rfl, -⟩ := (resumed_moment hd hs).exit o ho
    exact ⟨rc, s, hs, ho⟩
  · intro rc s h
    obtain ⟨rc', hrc, hiff⟩ := (resumed_moment hd h.1).exit _ h.2
    cases hrc
    exact hiff

/-- The sha256 of the one-byte blob `a`. -/
def letterHex : Str :=
  "ca978112ca1bbdcafac231b39a23dc4da786eff8147c4e72b9807785afee48bb".toList

/-- A download of the blob `a`, served in one piece. -/
def letter : Env where
  ref := "ghcr.io/tuna-os/xfce-linux/cache:latest".toList
  digest := "sha256:".toList ++ letterHex
  size := 1
  hexdigest _ := letterHex
  bearer _ := some "token".toList
  server _ req :=
    .ok (if req.range = none then ⟨200, [[0x61]], false⟩ else ⟨206, [], false⟩)
  sink _ := none
  flush := true

theorem letter_download : Download letter [0x61] where
  size := show (1 : Int) = ([0x61] : Bytes).length by simp
  digest := show "sha256:".toList ++ letterHex = _ from rfl
  server n req := by
    change Serves [0x61] req
      (.ok (if req.range = none then ⟨200, [[0x61]], false⟩ else ⟨206, [], false⟩))
    cases h : req.range <;> simp [Serves, h, Response.body]
  bearer _ := rfl
  sink _ := rfl
  flush := rfl

/-- The sha256 of the blob `abc`. -/
def abcHex : Str :=
  "ba7816bf8f01cfea414140de5dae2223b00361a396177a9cb410ff61f20015ad".toList

def abc : Bytes := [0x61, 0x62, 0x63]

/-- The first answer is cut behind `a`, the next request is turned down, and the one after it is
answered with the rest. -/
def abcAnswer (n : Nat) (req : Request) : Answer :=
  match req.range with
  | none => .ok ⟨200, [[0x61]], true⟩
  | some o => if n = 1 then .raise (.http 503) else .ok ⟨206, [abc.drop o], false⟩

theorem serves_abcAnswer (n : Nat) (req : Request) : Serves abc req (abcAnswer n req) := by
  cases h : req.range with
  | none => simp [Serves, abcAnswer, h, Response.body, abc]
  | some o =>
    by_cases hn : n = 1
    · simp [Serves, abcAnswer, h, hn]
    · simp [Serves, abcAnswer, h, hn, Response.body]

/-- The sha256 of `abc` and of `a`. -/
def abcDigest (bs : Bytes) : Str := if bs = abc then abcHex else letterHex

theorem abcDigest_abc : abcDigest abc = abcHex := if_pos rfl

/-- A download of the blob `abc` that is cut and resumed. -/
def cutOnce : Env where
  ref := "ghcr.io/tuna-os/xfce-linux/cache:latest".toList
  digest := "sha256:".toList ++ abcHex
  size := 3
  hexdigest := abcDigest
  bearer _ := some "token".toList
  server := abcAnswer
  sink _ := none
  flush := true

theorem cutOnce_download : Download cutOnce abc where
  size := rfl
  digest := congrArg ("sha256:".toList ++ ·) abcDigest_abc.symm
  server := serves_abcAnswer
  bearer _ := rfl
  sink _ := rfl
  flush := rfl

/-- A registry that answers every request for the rest with the whole blob. -/
def restarted : Env :=
  { cutOnce with
    server := fun n req => if req.range = none then abcAnswer n req else .ok ⟨200, [abc], false⟩ }

theorem download_gapless_cutOnce :
    Gapless abc (runFor (step cutOnce) 8 init) ∧
      (runFor (step cutOnce) 8 init).pc = .caught .cut ∧
      (runFor (step cutOnce) 30 init).requests = 3 ∧
      (runFor (step cutOnce) 30 init).out = abc ∧
      ∃ t, Returns restarted 1 t ∧ t.out = [0x61] := by
  obtain ⟨hmoment, -, hreturns⟩ := download_gapless.1 cutOnce abc cutOnce_download
  have hdone : Returns cutOnce 0 (runFor (step cutOnce) 30 init) :=
    ⟨steps_runFor 30 init, by decide⟩
  have hwhole : Moment restarted (runFor (step restarted) 10 init) := steps_runFor 10 init
  exact ⟨(hmoment _ (steps_runFor 8 init)).1, by decide, by decide, (hreturns 0 _ hdone).mp rfl,
    download_gapless.2 restarted _ ⟨200, [abc], false⟩ hwhole (by decide) (by decide) (by decide)
      (by decide)⟩

/-- Between `out.write(buf)` and `offset += len(buf)` stdout is ahead of `offset`. -/
theorem not_always_first_offset_bytes :
    ¬ ∀ (env : Env) (B : Bytes), Download env B → ∀ s, Moment env s →
      FirstBytes B s.out s.offset ∧ FirstBytes B s.sha s.offset := by
  intro h
  have hs : Moment letter (runFor (step letter) 5 init) := steps_runFor 5 init
  have hout := (h letter [0x61] letter_download _ hs).1.1
  exact absurd hout (by decide)

end XfceLinux.Ghcr
