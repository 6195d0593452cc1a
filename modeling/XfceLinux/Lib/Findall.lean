import XfceLinux.Lib.Regex

/-!
# Where `findall` begins to read

An expression is anchored at a character when each of its matches begins with the
character and holds no other one, and it does not ask whether it stands at the start of the
text. A match in front of the character then ends in front of it, so that `findall` finds
the same matches from there on, whatever stands before (`findall_append`).
-/

namespace XfceLinux.Lib.Regex

open Text

structure Anchored (r : Re) (x : Char) : Prop where
  head : ∀ {first s d}, d ∈ run r ⟨first, s, []⟩ → ∃ t, s = x :: (t ++ d.rest) ∧ x ∉ t
  start : ∀ s, run r ⟨true, s, []⟩ = run r ⟨false, s, []⟩

namespace Anchored

variable {r : Re} {x : Char} (h : Anchored r x)

include h

theorem run_eq (first first' : Bool) (s : Str) :
    run r ⟨first, s, []⟩ = run r ⟨first', s, []⟩ := by
  cases first <;> cases first' <;> simp [h.start]

theorem findallFrom_eq {m n : Nat} {first first' : Bool} {s : Str} (hm : s.length ≤ m)
    (hn : s.length ≤ n) : findallFrom r m first s = findallFrom r n first' s := by
  induction m generalizing n first first' s with
  | zero =>
    obtain rfl : s = [] := List.length_eq_zero_iff.mp (by omega)
    cases n <;> rfl
  | succ m ih =>
    cases s with
    | nil => cases n <;> rfl
    | cons y s =>
      rw [List.length_cons] at hm hn
      obtain ⟨n, rfl⟩ : ∃ k, n = k + 1 := ⟨n - 1, by omega⟩
      rw [findallFrom, findallFrom, h.run_eq first' first]
      cases hhead : (run r ⟨first, y :: s, []⟩).head? with
      | none => exact ih (by omega) (by omega)
      | some c =>
        obtain ⟨t, hs, -⟩ := h.head (List.mem_of_head? hhead)
        have hlength : c.rest.length ≤ s.length := by
          rw [(List.cons.inj hs).2, List.length_append]
          omega
        exact congrArg (c :: ·) (ih (by omega) (by omega))

theorem findall_of_none {y : Char} {s : Str} (hhead : (run r ⟨true, y :: s, []⟩).head? = none) :
    findall r (y :: s) = findall r s := by
  rw [findall, List.length_cons, findallFrom, hhead]
  exact h.findallFrom_eq le_rfl le_rfl

theorem findall_of_some {y : Char} {s : Str} {c : Cur}
    (hhead : (run r ⟨true, y :: s, []⟩).head? = some c) :
    findall r (y :: s) = c :: findall r c.rest := by
  obtain ⟨t, hs, -⟩ := h.head (List.mem_of_head? hhead)
  have hlength : c.rest.length ≤ s.length := by
    rw [(List.cons.inj hs).2, List.length_append]
    omega
  rw [findall, List.length_cons, findallFrom, hhead]
  exact congrArg (c :: ·) (h.findallFrom_eq hlength le_rfl)

theorem findall_eq_nil {s : Str} (hx : x ∉ s) : findall r s = [] := by
  induction s with
  | nil => rfl
  | cons y s ih =>
    have hhead : (run r ⟨true, y :: s, []⟩).head? = none := by
      by_contra hsome
      obtain ⟨c, hc⟩ := Option.ne_none_iff_exists'.mp hsome
      obtain ⟨t, hs, -⟩ := h.head (List.mem_of_head? hc)
      exact hx (hs ▸ List.mem_cons_self)
    rw [h.findall_of_none hhead, ih fun hmem => hx (List.mem_cons_of_mem y hmem)]

/-- **From the character on** the matches do not depend on what stands before it. -/
theorem findall_append (u v : Str) :
    ∃ ms, findall r (u ++ x :: v) = ms ++ findall r (x :: v) := by
  induction hn : u.length using Nat.strong_induction_on generalizing u with
  | _ n ih =>
    cases u with
    | nil => exact ⟨[], rfl⟩
    | cons y u =>
      rw [List.length_cons] at hn
      rw [List.cons_append]
      cases hhead : (run r ⟨true, y :: (u ++ x :: v), []⟩).head? with
      | none =>
        obtain ⟨ms, hms⟩ := ih u.length (by omega) u rfl
        exact ⟨ms, (h.findall_of_none hhead).trans hms⟩
      | some c =>
        obtain ⟨t, hs, ht⟩ := h.head (List.mem_of_head? hhead)
        -- the match holds no second `x`, so it ends in front of the one behind `u`
        obtain ⟨w, rfl, hrest⟩ : ∃ w, u = t ++ w ∧ c.rest = w ++ x :: v := by
          rcases List.append_eq_append_iff.mp (List.cons.inj hs).2 with
            ⟨w, hw, hv⟩ | ⟨w, hw, hv⟩
          · cases w with
            | nil => exact ⟨[], by simpa using hw.symm, by simpa using hv.symm⟩
            | cons z w =>
              rw [List.cons_append] at hv
              rw [hw, (List.cons.inj hv).1] at ht
              simp at ht
          · exact ⟨w, hw, hv⟩
        rw [List.length_append] at hn
        obtain ⟨ms, hms⟩ := ih w.length (by omega) w rfl
        refine ⟨c :: ms, ?_⟩
        rw [h.findall_of_some hhead, hrest, hms, List.cons_append]

/-- The last match is found from any point before it. -/
theorem getLast?_findall_append {v : Str} {c : Cur}
    (hhead : (run r ⟨true, x :: v, []⟩).head? = some c) (u : Str) :
    (findall r (u ++ x :: v)).getLast? = (findall r (x :: v)).getLast? := by
  obtain ⟨ms, hms⟩ := h.findall_append u v
  rw [hms, h.findall_of_some hhead]
  exact List.getLast?_append_of_ne_nil _ (List.cons_ne_nil _ _)

end Anchored

end XfceLinux.Lib.Regex
