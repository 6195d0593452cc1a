import Mathlib

/-!
# Since

`Since starts ends xs`: some element starts something and no later one ends it. This is what
an entry means in a table that is kept up to date element by element; `since_snoc` is the
step.
-/

namespace XfceLinux.Lib

variable {α : Type*} {starts ends : α → Prop}

/-- An element that starts is not followed by one that ends. -/
def Since (starts ends : α → Prop) (xs : List α) : Prop :=
  ∃ before x after, xs = before ++ x :: after ∧ starts x ∧ ∀ y ∈ after, ¬ends y

theorem not_since_nil : ¬Since starts ends [] := by
  rintro ⟨before, x, after, hnil, -⟩
  simp at hnil

theorem since_snoc {xs : List α} {x : α} :
    Since starts ends (xs ++ [x]) ↔ starts x ∨ ¬ends x ∧ Since starts ends xs := by
  constructor
  · rintro ⟨before, y, after, hxs, hstarts, hkept⟩
    rcases List.eq_nil_or_concat after with rfl | ⟨later, z, rfl⟩
    · obtain ⟨-, hxy⟩ := List.append_inj' hxs rfl
      exact .inl (List.singleton_inj.mp hxy ▸ hstarts)
    · rw [List.concat_eq_append, ← List.cons_append, ← List.append_assoc] at hxs
      obtain ⟨hxs, hxz⟩ := List.append_inj' hxs rfl
      rw [List.singleton_inj.mp hxz]
      refine .inr ⟨hkept z (by simp), before, y, later, hxs, hstarts, ?_⟩
      intro w hw
      exact hkept w (by simp [hw])
  · rintro (hstarts | ⟨hends, before, y, after, rfl, hstarts, hkept⟩)
    · exact ⟨xs, x, [], rfl, hstarts, by simp⟩
    · refine ⟨before, y, after ++ [x], by simp, hstarts, ?_⟩
      intro z hz
      rcases List.mem_append.mp hz with hz | hz
      · exact hkept z hz
      · exact List.mem_singleton.mp hz ▸ hends

/-- The elements behind the last one that cuts. -/
def behindLast (cuts : α → Bool) (xs : List α) : List α := xs.rtakeWhile fun x => !cuts x

theorem behindLast_snoc (cuts : α → Bool) (xs : List α) (x : α) :
    behindLast cuts (xs ++ [x]) = if cuts x then [] else behindLast cuts xs ++ [x] := by
  rw [behindLast, List.rtakeWhile_concat]
  cases cuts x <;> rfl

end XfceLinux.Lib
