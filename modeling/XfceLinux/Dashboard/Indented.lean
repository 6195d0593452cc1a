import XfceLinux.Lib.Matches
import XfceLinux.Lib.Words
import XfceLinux.Dashboard.Updates

/-!
# Indented words

The element lines and the log path lines of a Failure Summary are one indented word each
(`Indented`). Of the other expressions of `parse_line`, the header has several words, the
structured line and the Pipeline Summary are not indented, and the words of the summary
counters are known (`Indented.afterLine`).
-/

namespace XfceLinux.Dashboard

open Lib Lib.Text Lib.Regex

/-- The text is the word `w`, indented. -/
structure Indented (clean w : Str) : Prop where
  word : words clean = [w]
  indent : ∀ c ∈ clean.head?, isSpace c

theorem indented_append {ws w tail : Str} (hne : ws ≠ []) (hws : ∀ c ∈ ws, isSpace c)
    (hw : w ≠ []) (hword : ∀ c ∈ w, isSpace c = false) (ht : ∀ c ∈ tail, isSpace c) :
    Indented (ws ++ w ++ tail) w := by
  constructor
  · rw [words_append_space ht, words_space_append hws, words_of_forall hword hw]
  · obtain ⟨d, ws, rfl⟩ := List.exists_cons_of_ne_nil hne
    intro c hc
    obtain rfl : d = c := by simpa using hc
    exact hws d List.mem_cons_self

namespace Indented

variable {host : Host} {raw clean w : Str}

theorem ne_nil (h : Indented clean w) : clean ≠ [] := by
  rintro rfl
  have := h.word
  cases this

/-- A first word with more text behind it is the only one. -/
theorem eq_of_append (h : Indented clean w) {ws x r : Str} {c : Char}
    (hclean : clean = ws ++ x ++ c :: r) (hws : ∀ c ∈ ws, isSpace c) (hx : x ≠ [])
    (hword : ∀ c ∈ x, isSpace c = false) (hc : isSpace c) : w = x := by
  have hwords := h.word
  rw [hclean, words_append_cons hc, words_space_append hws, words_of_forall hword hx,
    List.singleton_append] at hwords
  exact (List.cons.inj hwords).1.symm

theorem isHeader (h : Indented (cleanLine raw) w) : isHeader raw = false := by
  rw [Dashboard.isHeader, Bool.eq_false_iff]
  intro hsearch
  obtain ⟨x, y, hxy⟩ := infix_of_search hsearch
  have hsplit : cleanLine raw =
      (x ++ "===".toList) ++ ' ' :: ("Build started at ".toList ++ y) := by
    rw [← hxy]
    simp
  have hwords := congrArg List.length h.word
  have hfirst : words (x ++ "===".toList) ≠ [] := words_ne_nil (c := '=') (by simp) (by decide)
  have hsecond : words ("Build started at ".toList ++ y) ≠ [] :=
    words_ne_nil (c := 'B') (by simp) (by decide)
  rw [hsplit, words_append_cons (by decide), List.length_append, List.length_singleton] at hwords
  have := List.length_pos_of_ne_nil hfirst
  have := List.length_pos_of_ne_nil hsecond
  omega

theorem head_ne (h : Indented clean w) {c : Char} {r : Str} (hc : isSpace c = false) :
    clean ≠ c :: r := by
  rintro rfl
  have := h.indent c rfl
  rw [hc] at this
  cases this

theorem isSummary (h : Indented (cleanLine raw) w) : isSummary raw = false := by
  have hnone : matchStart pipelineSummaryRe (cleanLine raw) = none := by
    rw [← Option.not_isSome_iff_eq_none, matchStart_isSome]
    rintro ⟨d, hd⟩
    rw [pipelineSummaryRe, mem_run_cat_cons] at hd
    obtain ⟨a, ha, hd⟩ := hd
    rw [mem_run_bos] at ha
    obtain ⟨-, rfl⟩ := ha
    obtain ⟨r, hr⟩ := prefix_of_run hd
    exact h.head_ne (c := 'P') (by decide) hr.symm
  rw [Dashboard.isSummary, hnone]
  exact Bool.and_false _

theorem total (h : Indented clean w) (hw : w ≠ "Total:".toList) (u : Unicode) :
    matchStart (summaryTotalRe u) clean = none := by
  rw [← Option.not_isSome_iff_eq_none, matchStart_isSome]
  rintro ⟨d, hd⟩
  simp only [summaryTotalRe, space, mem_run_cat_cons, mem_run_bos, mem_run_plus_set,
    mem_run_lit] at hd
  obtain ⟨_, ⟨-, rfl⟩, _, ⟨ws, r₁, h₁, -, hws, rfl⟩, _, ⟨r₂, h₂, rfl⟩, _,
    ⟨v, r₃, h₃, hv, hspace, rfl⟩, -⟩ := hd
  obtain ⟨c, v, rfl⟩ := List.exists_cons_of_ne_nil hv
  simp only [advance_rest] at h₁ h₂ h₃
  have hclean : clean = ws ++ "Total:".toList ++ c :: (v ++ r₃) := by
    rw [h₁, h₂, h₃]
    simp
  exact hw (h.eq_of_append hclean hws (by decide) (by simp [isSpace])
    (hspace c List.mem_cons_self))

theorem queue (h : Indented clean w) (hpull : w ≠ "Pull".toList) (hbuild : w ≠ "Build".toList)
    (u : Unicode) : matchStart (summaryQueueRe u) clean = none := by
  rw [← Option.not_isSome_iff_eq_none, matchStart_isSome]
  rintro ⟨d, hd⟩
  simp only [summaryQueueRe, space, mem_run_cat_cons, mem_run_bos, mem_run_plus_set,
    mem_run_group, mem_run_alt, mem_run_lit] at hd
  obtain ⟨_, ⟨-, rfl⟩, _, ⟨ws, r₁, h₁, -, hws, rfl⟩, _, ⟨_, hq, rfl⟩, _, ⟨r₃, h₃, rfl⟩, -⟩ := hd
  have hword : ∀ x : Str, x ≠ [] → (∀ c ∈ x, isSpace c = false) → r₁ = x ++ " Queue:".toList ++ r₃ →
      w = x := by
    intro x hx hxs hr
    have hrest : clean = ws ++ r₁ := h₁
    have hclean : clean = ws ++ x ++ ' ' :: ("Queue:".toList ++ r₃) := by
      rw [hrest, hr]
      simp
    exact h.eq_of_append hclean hws hx hxs (by decide)
  rcases hq with ⟨r₂, h₂, rfl⟩ | ⟨r₂, h₂, rfl⟩ <;> simp only [advance_rest] at h₂ h₃
  · exact hpull (hword _ (by decide) (by simp [isSpace]) (by rw [h₂, h₃, List.append_assoc]))
  · exact hbuild (hword _ (by decide) (by simp [isSpace]) (by rw [h₂, h₃, List.append_assoc]))

end Indented

end XfceLinux.Dashboard
