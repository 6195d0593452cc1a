import XfceLinux.Dashboard.Events

/-!
# The lines of a Failure Summary

A call of `parse_line` for an element line is the update `_add_failure_elem`
(`afterLine_listed`), one for a log path line the update `_set_fail_log`
(`afterLine_failLog`); besides, both may enter the line into the recent log.
-/

namespace XfceLinux.Dashboard

open Lib Lib.Text Lib.Regex

theorem Indented.event {host : Host} {clean w : Str} (h : Indented clean w) :
    event? host clean = none := by
  rw [Option.eq_none_iff_forall_not_mem]
  intro e he
  obtain ⟨r, hr⟩ := bracket_of_event he
  exact h.head_ne (by decide) hr

/-- A log path line is one indented word, which ends in `.log`. -/
theorem indented_of_failureLog {host : Host} {clean path : Str}
    (h : failureLog host clean = some path) :
    ∃ w, Indented clean ("/root/.cache/buildstream/logs/".toList ++ (w ++ ".log".toList)) := by
  obtain ⟨m, hm, -⟩ := Option.map_eq_some_iff.mp h
  obtain ⟨d, hd⟩ := matchStart_isSome.mp (Option.isSome_iff_exists.mpr ⟨m, hm⟩)
  simp only [bstLogPathRe, space, mem_run_cat_cons, mem_run_cat_nil, mem_run_bos,
    mem_run_plus_set, mem_run_group, mem_run_lit, mem_run_star_set, mem_run_eos] at hd
  obtain ⟨_, ⟨-, rfl⟩, _, ⟨ws, r₁, h₁, hne, hws, rfl⟩, _, ⟨r₂, h₂, rfl⟩, _,
    ⟨_, ⟨_, ⟨u, r₃, h₃, -, hu, rfl⟩, _, ⟨r₄, h₄, rfl⟩, rfl⟩, rfl⟩, _,
    ⟨tail, r₅, h₅, ht, rfl⟩, _, ⟨hend, rfl⟩, rfl⟩ := hd
  simp only [advance_rest] at h₁ h₂ h₃ h₄ h₅ hend
  have hr₅ : ∀ c ∈ r₅, isSpace c := by
    rcases hend with rfl | rfl
    · simp
    · simp [isSpace]
  have hclean : clean = ws ++ ("/root/.cache/buildstream/logs/".toList ++ (u ++ ".log".toList)) ++
      (tail ++ r₅) := by
    rw [h₁, h₂, h₃, h₄, h₅]
    simp
  rw [hclean]
  refine ⟨u, indented_append hne hws (by simp) ?_
    (List.forall_mem_append.mpr ⟨ht, hr₅⟩)⟩
  rw [List.forall_mem_append, List.forall_mem_append]
  exact ⟨by simp [isSpace], fun c hc => by simpa using hu c hc, by simp [isSpace]⟩

/-- No line is both an element line and a log path line. -/
theorem failureLog_of_failureElem {host : Host} {clean elem : Str}
    (h : failureElem host clean = some elem) : failureLog host clean = none := by
  rw [Option.eq_none_iff_forall_not_mem]
  intro path hpath
  obtain ⟨w, hw⟩ := indented_of_failureElem h
  obtain ⟨v, hv⟩ := indented_of_failureLog hpath
  have hwords := hw.word.symm.trans hv.word
  refine append_bst_ne w ?_ (List.singleton_inj.mp hwords)
  simp

theorem path_ne_nil {host : Host} {clean path : Str} (h : failureLog host clean = some path) :
    path ≠ [] := by
  obtain ⟨m, -, rfl⟩ := Option.map_eq_some_iff.mp h
  have hlogs : bstLogs host ≠ [] := by simp [bstLogs, Path.expanduser]
  unfold Path.join
  split
  · intro hnil
    simp_all
  · split
    · simp [hlogs]
    · simp

/-! ## The calls -/

/-- A line with one indented word, which is not one of the summary counters. -/
theorem afterLine_indented {host : Host} {raw w : Str} (h : Indented (cleanLine raw) w)
    (hw : w ≠ "Total:".toList ∧ w ≠ "Pull".toList ∧ w ≠ "Build".toList) (clock : Clock)
    (s : State) :
    afterLine host clock raw s =
      if (List.replicate 8 ' ').isPrefixOf (cleanLine raw) then
        parseFailureBlock host (cleanLine raw) s
      else (parseFailureBlock host (cleanLine raw) s).update
        (addRecent ((cleanLine raw).take 200)) := by
  have htotal : parseTotal host (cleanLine raw) s = .ok s := by
    rw [parseTotal, h.total hw.1]
  have hqueue : parseQueue host (cleanLine raw) s = .ok s := by
    rw [parseQueue, h.queue hw.2.1 hw.2.2]
  rw [afterLine, parseLine_inner h.isHeader h.isSummary, if_neg h.ne_nil, htotal]
  simp only [bind, Except.bind, hqueue, pure, Except.pure, parseRest, h.event]

/-- What the other updates of the line do not touch. -/
structure SameBuild (s t : State) : Prop where
  active : t.active = s.active
  failures : t.failures = s.failures
  failureCount : t.failureCount = s.failureCount

theorem afterLine_listed {host : Host} {raw elem : Str}
    (h : failureElem host (cleanLine raw) = some elem) (clock : Clock) (s : State) :
    SameBuild (addFailureElem elem s) (afterLine host clock raw s) := by
  obtain ⟨w, hw⟩ := indented_of_failureElem h
  have hblock : parseFailureBlock host (cleanLine raw) s = s.update (addFailureElem elem) := by
    rw [parseFailureBlock, h, failureLog_of_failureElem h]
  rw [afterLine_indented hw ⟨append_bst_ne w (by decide), append_bst_ne w (by decide),
    append_bst_ne w (by decide)⟩, hblock]
  split <;> exact ⟨rfl, rfl, rfl⟩

theorem afterLine_failLog {host : Host} {raw path : Str}
    (h : failureLog host (cleanLine raw) = some path) (clock : Clock) (s : State) :
    SameBuild (setFailLog path s) (afterLine host clock raw s) := by
  obtain ⟨w, hw⟩ := indented_of_failureLog h
  have helem : failureElem host (cleanLine raw) = none := by
    rw [Option.eq_none_iff_forall_not_mem]
    intro elem helem
    cases h.symm.trans (failureLog_of_failureElem helem)
  have hblock : parseFailureBlock host (cleanLine raw) s = s.update (setFailLog path) := by
    rw [parseFailureBlock, helem, h]
  rw [afterLine_indented hw (by simp), hblock]
  split <;> exact ⟨rfl, rfl, rfl⟩

end XfceLinux.Dashboard
