import XfceLinux.Install.Fisherman

/-!
# The hostname of the recipe

The wrapper reads the hostname from the recipe with `grep`, line by line, and not as JSON. A
recipe is legible if it finds there what the recipe states. It does so where the key stands
once in the text, on a line with its value, and the value is written without escapes
(`legible_of_entry`).
-/

namespace XfceLinux.Install

open Lib Lib.Text Lib.Regex

/-- The value of the key `"hostname"` in the recipe. -/
def recipeHostname (recipe : Str) : Option Str := do
  let d ← Jsonload.loads recipe
  (← d.get? "hostname".toList).str?

/-- The line that the script makes of the text of the recipe is the hostname it states. -/
def Legible (recipe : Str) : Prop :=
  ∃ h, recipeHostname recipe = some h ∧ echo (hostname recipe) = h ++ ['\n']

/-! ## Entries -/

def key : Str := "\"hostname\"".toList

/-- The key and its value on one line, with blanks around the colon. -/
def entry (a b h : Str) : Str := key ++ (a ++ ':' :: (b ++ '"' :: (h ++ ['"'])))

theorem key_ne_nil : key ≠ [] := by decide

/-- A text in quotation marks. -/
def quoted (h : Str) : Str := '"' :: (h ++ ['"'])

def Entry (w : Str) : Prop :=
  ∃ a b h, (∀ c ∈ a, posixSpace c = true) ∧ (∀ c ∈ b, posixSpace c = true) ∧ '"' ∉ h ∧
    w = entry a b h

theorem toList_colon : ":".toList = [':'] := rfl

theorem toList_quote : "\"".toList = ['"'] := rfl

theorem toList_key : "\"hostname\"".toList = key := rfl

theorem mem_run_hostnameRe {c d : Cur} :
    d ∈ run hostnameRe c ↔ ∃ w, Entry w ∧ c.rest = w ++ d.rest ∧ d = c.advance w d.rest := by
  rw [hostnameRe]
  simp only [mem_run_cat_lit, mem_run_cat_star_set, mem_run_cat_nil, advance_rest,
    advance_advance, toList_colon, toList_quote, toList_key, bne_iff_ne]
  constructor
  · rintro ⟨_, hkey, a, _, rfl, ha, _, rfl, b, _, rfl, hb, _, rfl, h, _, rfl, hh, rest, rfl, rfl⟩
    refine ⟨entry a b h, ⟨a, b, h, ha, hb, fun hmem => hh '"' hmem rfl, rfl⟩, ?_, ?_⟩
    · rw [hkey, entry]
      simp only [advance_rest, List.append_assoc, List.cons_append, List.nil_append]
    · simp only [advance_rest, entry, List.append_assoc, List.cons_append, List.nil_append]
  · rintro ⟨_, ⟨a, b, h, ha, hb, hh, rfl⟩, hrest, hd⟩
    have hvalue : ∀ x ∈ h, x ≠ '"' := fun x hx hquote => hh (hquote ▸ hx)
    refine ⟨_, ?_, a, _, rfl, ha, _, rfl, b, _, rfl, hb, _, rfl, h, _, rfl, hvalue, d.rest, rfl, ?_⟩
    · rw [hrest, entry]
      simp only [List.append_assoc, List.cons_append, List.nil_append]
    · simpa only [entry, List.append_assoc, List.cons_append, List.nil_append] using hd

theorem mem_run_quotedRe {c d : Cur} :
    d ∈ run quotedRe c ↔ ∃ h, '"' ∉ h ∧ (d.rest = [] ∨ d.rest = ['\n']) ∧
      c.rest = quoted h ++ d.rest ∧ d = c.advance (quoted h) d.rest := by
  rw [quotedRe]
  simp only [mem_run_cat_lit, mem_run_cat_star_set, mem_run_cat_eos, mem_run_cat_nil,
    advance_rest, advance_advance, toList_quote, bne_iff_ne]
  constructor
  · rintro ⟨_, hopening, h, _, rfl, hh, rest, rfl, heos, rfl⟩
    exact ⟨h, fun hmem => hh '"' hmem rfl, heos, by simpa [quoted] using hopening, rfl⟩
  · rintro ⟨h, hh, heos, hrest, hd⟩
    have hvalue : ∀ x ∈ h, x ≠ '"' := fun x hx hquote => hh (hquote ▸ hx)
    exact ⟨_, by simpa [quoted] using hrest, h, _, rfl, hvalue, d.rest, rfl, heos, hd⟩

/-! ## What the two `grep`s take -/

theorem notMem_of_posixSpace {x : Char} (hx : posixSpace x = false) {s : Str}
    (hs : ∀ c ∈ s, posixSpace c = true) : x ∉ s := by
  intro hmem
  exact absurd (hs x hmem) (by simp [hx])

theorem entry_append (a b h rest : Str) :
    entry a b h ++ rest = key ++ (a ++ ':' :: (b ++ '"' :: (h ++ '"' :: rest))) := by
  simp [entry]

/-- An entry ends where its value does. -/
theorem entry_unique {w w' rest rest' : Str} (hw : Entry w) (hw' : Entry w')
    (h : w ++ rest = w' ++ rest') : w = w' := by
  obtain ⟨a, b, v, ha, hb, hv, rfl⟩ := hw
  obtain ⟨a', b', v', ha', hb', hv', rfl⟩ := hw'
  have hcolon {s : Str} (hs : ∀ c ∈ s, posixSpace c = true) : ':' ∉ s :=
    notMem_of_posixSpace (by decide) hs
  have hquote {s : Str} (hs : ∀ c ∈ s, posixSpace c = true) : '"' ∉ s :=
    notMem_of_posixSpace (by decide) hs
  rw [entry_append, entry_append] at h
  obtain ⟨rfl, hbehind⟩ :=
    Lines.append_cons_inj (hcolon ha) (hcolon ha') (List.append_cancel_left h)
  obtain ⟨rfl, hvalue⟩ := Lines.append_cons_inj (hquote hb) (hquote hb') hbehind
  obtain ⟨rfl, -⟩ := Lines.append_cons_inj hv hv' hvalue
  rfl

theorem Entry.ne_nil {w : Str} (hw : Entry w) : w ≠ [] := by
  obtain ⟨a, b, h, -, -, -, rfl⟩ := hw
  exact List.append_ne_nil_of_left_ne_nil key_ne_nil _

theorem takes_hostnameRe : Takes hostnameRe fun w _ => Entry w where
  mem hd := by
    obtain ⟨w, hw, hrest, -⟩ := mem_run_hostnameRe.mp hd
    exact ⟨w, hw, hrest⟩
  run_ne_nil first w rest hw := by
    have hmem : Cur.advance ⟨first, w ++ rest, []⟩ w rest ∈ run hostnameRe ⟨first, w ++ rest, []⟩ :=
      mem_run_hostnameRe.mpr ⟨w, hw, rfl, rfl⟩
    exact List.ne_nil_of_mem hmem
  unique := entry_unique
  ne_nil := Entry.ne_nil

theorem takes_quotedRe :
    Takes quotedRe fun w rest => (rest = [] ∨ rest = ['\n']) ∧ ∃ h, '"' ∉ h ∧ w = quoted h where
  mem hd := by
    obtain ⟨h, hh, heos, hrest, -⟩ := mem_run_quotedRe.mp hd
    exact ⟨quoted h, ⟨heos, h, hh, rfl⟩, hrest⟩
  run_ne_nil first w rest hw := by
    obtain ⟨heos, h, hh, rfl⟩ := hw
    have hmem : Cur.advance ⟨first, quoted h ++ rest, []⟩ (quoted h) rest ∈
        run quotedRe ⟨first, quoted h ++ rest, []⟩ :=
      mem_run_quotedRe.mpr ⟨h, hh, heos, rfl, rfl⟩
    exact List.ne_nil_of_mem hmem
  unique := by
    rintro _ rest _ rest' ⟨-, h, hh, rfl⟩ ⟨-, h', hh', rfl⟩ heq
    simp only [quoted, List.cons_append, List.append_assoc, List.nil_append] at heq
    rw [(Lines.append_cons_inj hh hh' (List.cons.inj heq).2).1]
  ne_nil := by
    rintro _ rest ⟨-, h, -, rfl⟩
    exact List.cons_ne_nil _ _

theorem count_quoted {h : Str} (hh : '"' ∉ h) : (quoted h).count '"' = 2 := by
  simp [quoted, List.count_eq_zero.mpr hh]

/-- The text in quotation marks at the end of a line is the only match there. -/
theorem texts_quotedRe {h : Str} (hh : '"' ∉ h) (u : Str) :
    texts quotedRe (u ++ quoted h) = [quoted h] := by
  have hmatch : texts quotedRe (quoted h ++ []) = [quoted h] :=
    takes_quotedRe.texts_append ⟨.inl rfl, h, hh, rfl⟩
  rw [takes_quotedRe.texts_skip]
  · rwa [List.append_nil] at hmatch
  -- a match in front of it would hold three quotation marks
  rintro u₁ u₂ w rest rfl hu₂ hsplit ⟨hrest, h', hh', rfl⟩
  have hcount := congrArg (List.count '"') hsplit
  have hrest : rest.count '"' = 0 := by rcases hrest with rfl | rfl <;> rfl
  obtain ⟨c, u₂, rfl⟩ := List.exists_cons_of_ne_nil hu₂
  obtain rfl : c = '"' := (List.cons.inj hsplit).1
  rw [List.count_append, List.count_append, count_quoted hh, count_quoted hh', hrest,
    List.count_cons_self] at hcount
  omega

theorem texts_entry {a b h : Str} (hh : '"' ∉ h) : texts quotedRe (entry a b h) = [quoted h] := by
  have hentry : entry a b h = (key ++ (a ++ ':' :: b)) ++ quoted h := by simp [entry, quoted]
  rw [hentry, texts_quotedRe hh]

/-- A line is captured without its newline. -/
theorem capture_line {s : Str} (hs : ∀ c ∈ s, c ≠ '\n' ∧ c ≠ '\x00') :
    capture (s ++ ['\n']) = s := by
  have hnul : (s ++ ['\n']).filter (· != '\x00') = s ++ ['\n'] := by
    rw [List.filter_eq_self]
    intro c hc
    rcases List.mem_append.mp hc with hc | hc
    · simpa using (hs c hc).2
    · rw [List.mem_singleton.mp hc]
      decide
  rw [capture, hnul, rstrip_append (by simp)]
  rcases List.eq_nil_or_concat' s with rfl | ⟨init, c, rfl⟩
  · rfl
  · exact rstrip_append_singleton (by simpa using (hs c (by simp)).1) init

/-! ## A recipe with one entry -/

/-- A recipe in which the key stands once, on one line with a value without escapes. -/
structure Spelling where
  front : Str
  a : Str
  b : Str
  value : Str
  back : Str
  blank_a : ∀ c ∈ a, posixSpace c = true ∧ c ≠ '\n'
  blank_b : ∀ c ∈ b, posixSpace c = true ∧ c ≠ '\n'
  plain : ∀ c ∈ value, c ≠ '"' ∧ c ≠ '\n' ∧ c ≠ '\x00'
  once : ∀ p q, front ++ (entry a b value ++ back) = p ++ key ++ q → p = front

namespace Spelling

variable (s : Spelling)

def recipe : Str := s.front ++ (entry s.a s.b s.value ++ s.back)

theorem quote_notMem : '"' ∉ s.value := fun h => (s.plain '"' h).1 rfl

theorem entry_entry : Entry (entry s.a s.b s.value) :=
  ⟨s.a, s.b, s.value, fun c hc => (s.blank_a c hc).1, fun c hc => (s.blank_b c hc).1,
    s.quote_notMem, rfl⟩

theorem newline_notMem : '\n' ∉ entry s.a s.b s.value := by
  have hkey : '\n' ∉ key := by decide
  have ha : '\n' ∉ s.a := fun h => (s.blank_a _ h).2 rfl
  have hb : '\n' ∉ s.b := fun h => (s.blank_b _ h).2 rfl
  have hvalue : '\n' ∉ s.value := fun h => (s.plain _ h).2.1 rfl
  simp [entry, hkey, ha, hb, hvalue]

/-- No part of the front begins a key. -/
theorem eq_nil_of_key {p u q : Str} (hfront : s.front = p ++ u)
    (hkey : u ++ (entry s.a s.b s.value ++ s.back) = key ++ q) : u = [] := by
  have hrecipe : s.recipe = p ++ key ++ q := by
    rw [recipe, hfront, List.append_assoc, hkey, List.append_assoc]
  have hp := s.once p q hrecipe
  rw [hfront] at hp
  exact List.self_eq_append_right.mp hp

theorem key_notInfix_front : ¬ key <:+: s.front := by
  rintro ⟨p, q, hfront⟩
  rw [List.append_assoc] at hfront
  have hnil := s.eq_nil_of_key hfront.symm (List.append_assoc key q _)
  exact key_ne_nil (List.append_eq_nil_iff.mp hnil).1

theorem key_notInfix_back : ¬ key <:+: s.back := by
  rintro ⟨p, q, hback⟩
  have hrecipe : s.recipe = (s.front ++ (entry s.a s.b s.value ++ p)) ++ key ++ q := by
    rw [recipe, ← hback]
    simp only [List.append_assoc]
  have hnil := List.append_right_eq_self.mp (s.once _ q hrecipe)
  exact s.entry_entry.ne_nil (List.append_eq_nil_iff.mp hnil).1

end Spelling

theorem Entry.exists_eq {w : Str} (hw : Entry w) : ∃ t, w = key ++ t := by
  obtain ⟨a, b, h, -, -, -, rfl⟩ := hw
  exact ⟨_, rfl⟩

theorem texts_hostnameRe_eq_nil {l : Str} (hl : ¬ key <:+: l) : texts hostnameRe l = [] := by
  apply takes_hostnameRe.texts_eq_nil
  rintro u w rest rfl hw
  obtain ⟨t, rfl⟩ := hw.exists_eq
  exact hl ⟨u, t ++ rest, by simp only [List.append_assoc]⟩

namespace Spelling

variable (s : Spelling)

/-- The line of the entry. -/
theorem texts_line {p u v q : Str} (hfront : s.front = p ++ u) (hback : s.back = v ++ q) :
    texts hostnameRe (u ++ (entry s.a s.b s.value ++ v)) = [entry s.a s.b s.value] := by
  have hbehind : ¬ key <:+: v := by
    intro hkey
    have hv : v <:+: s.back := ⟨[], q, hback.symm⟩
    exact s.key_notInfix_back (hkey.trans hv)
  rw [takes_hostnameRe.texts_skip, takes_hostnameRe.texts_append s.entry_entry,
    texts_hostnameRe_eq_nil hbehind]
  rintro u₁ u₂ w rest rfl hu₂ hsplit hw
  obtain ⟨t, rfl⟩ := hw.exists_eq
  refine hu₂ (s.eq_nil_of_key (p := p ++ u₁) (q := t ++ (rest ++ q)) ?_ ?_)
  · rw [hfront, List.append_assoc]
  · rw [hback, ← List.append_assoc (entry _ _ _), ← List.append_assoc, hsplit]
    simp only [List.append_assoc]

/-- The first `grep` prints the entry. -/
theorem grep_hostnameRe :
    grep hostnameRe (s.recipe.splitOn '\n') = [entry s.a s.b s.value] := by
  obtain ⟨ls, ms, u, v, p, q, hsplit, hfront, hback, hls, hms⟩ :=
    Lines.splitOn_around s.newline_notMem s.front s.back
  have hbefore : ls.flatMap (texts hostnameRe) = [] := by
    rw [List.flatMap_eq_nil_iff]
    exact fun l hl => texts_hostnameRe_eq_nil
      fun hkey => s.key_notInfix_front (hkey.trans (hls l hl))
  have hbehind : ms.flatMap (texts hostnameRe) = [] := by
    rw [List.flatMap_eq_nil_iff]
    exact fun m hm => texts_hostnameRe_eq_nil
      fun hkey => s.key_notInfix_back (hkey.trans (hms m hm))
  rw [recipe, hsplit, grep, List.flatMap_append, List.flatMap_cons, hbefore, hbehind,
    s.texts_line hfront hback]
  rfl

/-- **What the script reads** is the value of the entry. -/
theorem hostname_eq : hostname s.recipe = s.value := by
  have hvalues : grep quotedRe (grep hostnameRe (s.recipe.splitOn '\n')) = [quoted s.value] := by
    rw [s.grep_hostnameRe, grep, List.flatMap_singleton, texts_entry s.quote_notMem]
  have hquote : ∀ c ∈ s.value, (c != '"') = true := by simpa using fun c hc => (s.plain c hc).1
  have htr : (Lines.unlines '\n' [quoted s.value]).filter (· != '"') = s.value ++ ['\n'] := by
    simp [Lines.unlines, quoted, List.filter_eq_self.mpr hquote]
  simp only [hostname, hvalues, List.isEmpty_cons, Bool.false_eq_true, if_false, htr]
  exact capture_line fun c hc => (s.plain c hc).2

end Spelling

/-- **A recipe is legible** if the key stands in it once, on a line with its value, and the value
is no option of `echo`. -/
theorem legible_of_entry (s : Spelling) (hstated : recipeHostname s.recipe = some s.value)
    (hecho : echoOption s.value = false) : Legible s.recipe := by
  refine ⟨s.value, hstated, ?_⟩
  rw [s.hostname_eq, echo, if_neg (by simp [hecho])]

example : Legible ("\x7b\n  \"composeFsBackend\": true,\n  \"hostname\": \"tuna\",\n" ++
    "  \"encryption\": \x7b\"type\": \"none\"\x7d,\n  \"flatpaks\": []\n\x7d\n").toList :=
  ⟨"tuna".toList, by decide +kernel, by decide +kernel⟩

end XfceLinux.Install
