import XfceLinux.Lib.Loop
import XfceLinux.Lib.Text

/-!
# Typing the passphrase of a libvirt guest

`run_libvirt` knows a screenshot by its size: a large one shows boot content, and a small
one after it the blank screen of Plymouth. A screenshot that failed has the size 0, so after
boot content it is taken for the blank screen (`libvirt_spares_iff`).
-/

namespace XfceLinux.Luks

open Lib Lib.Text

/-- What `virsh screenshot` leaves at a poll. -/
structure Screenshot where
  returncode : Int
  /-- The size of the file, if there is one. -/
  getsize : Option Nat
deriving DecidableEq

def virsh_screenshot_size (p : Screenshot) : Nat :=
  if p.returncode ≠ 0 then 0 else p.getsize.getD 0

/-- There is no screenshot. -/
def Screenshot.Failed (p : Screenshot) : Prop := p.returncode ≠ 0 ∨ p.getsize = none

/-- One iteration on `seen_content`, with whether it types the passphrase. -/
def takeover (seen_content : Bool) (p : Screenshot) : Bool × Bool :=
  let size := virsh_screenshot_size p
  let seen_content := seen_content || decide (4096 < size)
  (seen_content, seen_content && decide (size ≤ 4096))

structure LibvirtReport where
  /-- The number of screenshots. -/
  polls : Nat
  /-- Whether the passphrase is typed, which is then done at the last of them. -/
  sent : Bool
  exit : Nat
deriving DecidableEq

/-- `run_libvirt`, with the screenshots and then the results of `virsh_dhcp_ip` that fall
before the two deadlines. -/
def run_libvirt (polls : List Screenshot) (ips : List Str) : LibvirtReport where
  polls := (Loop.states takeover false polls).length
  sent := Loop.ended takeover false polls
  exit :=
    if Loop.ended takeover false polls then
      if ips.any (!·.isEmpty) then 0 else 2
    else 1

/-- No screenshot that failed makes the script type the passphrase. -/
def LibvirtSpares (polls : List Screenshot) (ips : List Str) : Prop :=
  ∀ (k : Nat) (p : Screenshot), polls[k]? = some p → p.Failed →
    ¬ ((run_libvirt polls ips).sent = true ∧ (run_libvirt polls ips).polls = k + 1)

/-! ## The blank screen -/

/-- A screenshot before poll `k` shows boot content. -/
def ContentBefore (polls : List Screenshot) (k : Nat) : Prop :=
  ∃ p ∈ polls.take k, 4096 < virsh_screenshot_size p

theorem behind_takeover (polls : List Screenshot) :
    Loop.behind takeover false polls = true ↔ ∃ p ∈ polls, 4096 < virsh_screenshot_size p := by
  induction polls using List.reverseRecOn with
  | nil => simp
  | append_singleton polls p ih =>
    rw [Loop.behind_concat, takeover, Bool.or_eq_true, ih, decide_eq_true_eq]
    simp only [List.mem_append, List.mem_singleton]
    constructor
    · rintro (⟨q, hq, hsize⟩ | hsize)
      · exact ⟨q, .inl hq, hsize⟩
      · exact ⟨p, .inr rfl, hsize⟩
    · rintro ⟨q, hq | rfl, hsize⟩
      · exact .inl ⟨q, hq, hsize⟩
      · exact .inr hsize

theorem endsAt_takeover_iff (polls : List Screenshot) (k : Nat) :
    Loop.EndsAt takeover false polls k ↔
      ContentBefore polls k ∧ ∃ p, polls[k]? = some p ∧ virsh_screenshot_size p ≤ 4096 := by
  constructor
  · rintro ⟨p, hp, hends⟩
    rw [takeover, Bool.and_eq_true, Bool.or_eq_true, decide_eq_true_eq, decide_eq_true_eq] at hends
    have hseen := hends.1.resolve_right (not_lt.mpr hends.2)
    exact ⟨(behind_takeover _).mp hseen, p, hp, hends.2⟩
  · rintro ⟨hseen, p, hp, hsize⟩
    refine ⟨p, hp, ?_⟩
    rw [takeover, Bool.and_eq_true, Bool.or_eq_true, decide_eq_true_eq, decide_eq_true_eq]
    exact ⟨.inl ((behind_takeover _).mpr hseen), hsize⟩

theorem size_of_failed {p : Screenshot} (h : p.Failed) : virsh_screenshot_size p = 0 := by
  unfold virsh_screenshot_size
  rcases h with hcode | hsize
  · exact if_pos hcode
  · rw [hsize]
    split <;> rfl

/-- A screenshot that failed is harmless exactly when it comes before any boot content or
after the passphrase, which an earlier blank screen behind boot content has called for. -/
theorem libvirt_spares_iff (polls : List Screenshot) (ips : List Str) :
    LibvirtSpares polls ips ↔
      ∀ (k : Nat) (p : Screenshot), polls[k]? = some p → p.Failed → ContentBefore polls k →
        ∃ j < k, ContentBefore polls j ∧
          ∃ q, polls[j]? = some q ∧ virsh_screenshot_size q ≤ 4096 := by
  have hSent : ∀ k, (run_libvirt polls ips).sent = true ∧ (run_libvirt polls ips).polls = k + 1 ↔
      Loop.EndsAt takeover false polls k ∧ ∀ j < k, ¬ Loop.EndsAt takeover false polls j :=
    fun k => Loop.ended_at_iff
  unfold LibvirtSpares
  simp only [hSent, endsAt_takeover_iff]
  constructor
  · intro h k p hp hfailed hseen
    by_contra hno
    push Not at hno
    refine h k p hp hfailed ⟨⟨hseen, p, hp, by rw [size_of_failed hfailed]; omega⟩, ?_⟩
    rintro j hj ⟨hj', q, hq, hsize⟩
    exact absurd hsize (not_le.mpr (hno j hj hj' q hq))
  · rintro h k p hp hfailed ⟨⟨hseen, -⟩, hfirst⟩
    obtain ⟨j, hj, hends⟩ := h k p hp hfailed hseen
    exact hfirst j hj hends

end XfceLinux.Luks
