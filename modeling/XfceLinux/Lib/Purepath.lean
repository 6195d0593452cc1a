import XfceLinux.Lib.Normpath
import XfceLinux.Lib.Utf8

/-!
# `pathlib` and the kernel's reading of a path

Both take a path as its names between slashes, without the empty ones and `.` (`segments`).
`str(Path(p) / q)` writes the names of `p` and `q` out again (`truediv`). The kernel sees the
bytes of a path: whether it begins with a slash, and its names (`resolve`). A file below a
directory `r` is the same for the kernel whether its path is spelled `r` with an absolute path
behind it, or as `pathlib` joins it (`resolve_truediv`).
-/

namespace XfceLinux.Lib.Path

open Text Lines

/-! ## Segments -/

section Segments

variable {α : Type*} [DecidableEq α]

/-- The names of a path over any alphabet with a slash and a dot. -/
def segments (sep dot : α) (s : List α) : List (List α) :=
  (s.splitOn sep).filter fun c => c ≠ [] ∧ c ≠ [dot]

theorem segments_append_cons (sep dot : α) (s t : List α) :
    segments sep dot (s ++ sep :: t) = segments sep dot s ++ segments sep dot t := by
  rw [segments, List.splitOn_append_cons_self, List.filter_append]
  rfl

theorem segments_nil (sep dot : α) : segments sep dot [] = [] := by simp [segments]

theorem of_mem_segments {sep dot : α} {s c : List α} (h : c ∈ segments sep dot s) :
    c ≠ [] ∧ c ≠ [dot] ∧ sep ∉ c := by
  obtain ⟨hc, hne⟩ := List.mem_filter.1 h
  obtain ⟨h₁, h₂⟩ := of_decide_eq_true hne
  exact ⟨h₁, h₂, notMem_of_mem_splitOn hc⟩

/-- Names written out between slashes are read back. -/
theorem segments_intercalate {sep dot : α} {cs : List (List α)}
    (h : ∀ c ∈ cs, c ≠ [] ∧ c ≠ [dot] ∧ sep ∉ c) :
    segments sep dot ([sep].intercalate cs) = cs := by
  cases cs with
  | nil => exact segments_nil sep dot
  | cons c cs =>
    rw [segments, List.splitOn_intercalate sep (fun l hl => (h l hl).2.2) (by simp)]
    exact List.filter_eq_self.2 fun l hl => decide_eq_true ⟨(h l hl).1, (h l hl).2.1⟩

theorem segments_replicate_append (sep dot : α) (n : Nat) (s : List α) :
    segments sep dot (List.replicate n sep ++ s) = segments sep dot s := by
  induction n with
  | zero => rfl
  | succ n ih =>
    have hCons := segments_append_cons sep dot [] (List.replicate n sep ++ s)
    rw [segments_nil, List.nil_append, List.nil_append, ih] at hCons
    rw [List.replicate_succ, List.cons_append]
    exact hCons

end Segments

/-! ## `pathlib` -/

def parts (p : Str) : List Str := segments '/' '.' p

/-- `str(PurePosixPath(p))` -/
def pure (p : Str) : Str :=
  let path := render (slashes p) (parts p)
  if path = [] then ['.'] else path

/-- `str(PurePosixPath(p) / q)` -/
def truediv (p q : Str) : Str := pure (join p q)

theorem parts_render (n : Nat) {cs : List Str} (h : ∀ c ∈ cs, c ≠ [] ∧ c ≠ ['.'] ∧ '/' ∉ c) :
    parts (render n cs) = cs := by
  rw [parts, render, segments_replicate_append, segments_intercalate h]

theorem parts_pure (p : Str) : parts (pure p) = parts p := by
  have hRender := parts_render (slashes p) fun c hc => of_mem_segments (s := p) hc
  unfold pure
  dsimp only
  split
  · rename_i hNil
    rw [← parts] at hRender
    rw [hNil] at hRender
    rw [← hRender]
    rfl
  · exact hRender

theorem parts_join {p q : Str} (hp : p ≠ []) (hq : q.head? ≠ some '/') :
    parts (join p q) = parts p ++ parts q := by
  rw [join, if_neg hq]
  split
  · rename_i hEnd
    have hLast : p.getLast? = some '/' := hEnd.resolve_left hp
    obtain ⟨r, rfl⟩ : ∃ r, p = r ++ ['/'] := by
      rw [List.getLast?_eq_some_iff] at hLast
      exact hLast
    have hDir : parts (r ++ ['/']) = parts r := by
      have hCons := segments_append_cons '/' '.' r []
      rw [segments_nil, List.append_nil] at hCons
      exact hCons
    rw [hDir, List.append_assoc]
    exact segments_append_cons '/' '.' r q
  · exact segments_append_cons '/' '.' p q

/-- Names written out without a slash before them are no absolute path. -/
theorem isAbsolute_render_zero {cs : List Str} (h : ∀ c ∈ cs, c ≠ [] ∧ c ≠ ['.'] ∧ '/' ∉ c) :
    isAbsolute (render 0 cs) = false := by
  cases cs with
  | nil => rfl
  | cons c cs =>
    obtain ⟨hc, -, hslash⟩ := h c List.mem_cons_self
    obtain ⟨x, c, rfl⟩ := List.exists_cons_of_ne_nil hc
    have hx : x ≠ '/' := fun hx => hslash (hx ▸ List.mem_cons_self)
    obtain ⟨t, ht⟩ : ∃ t, ['/'].intercalate ((x :: c) :: cs) = x :: t := by
      cases cs with
      | nil => exact ⟨c, by simp⟩
      | cons d ds => exact ⟨c ++ '/' :: ['/'].intercalate (d :: ds), by simp⟩
    simp [render, ht, isAbsolute, hx]

theorem isAbsolute_pure (p : Str) : isAbsolute (pure p) = isAbsolute p := by
  have hSegments : ∀ c ∈ parts p, c ≠ [] ∧ c ≠ ['.'] ∧ '/' ∉ c := fun c hc => of_mem_segments hc
  cases hp : isAbsolute p with
  | false =>
    have hSlashes : slashes p = 0 := by
      unfold slashes
      rw [if_neg (Bool.eq_false_iff.1 hp)]
    unfold pure
    dsimp only
    rw [hSlashes]
    split
    · rfl
    · exact isAbsolute_render_zero hSegments
  | true =>
    have hRender := isAbsolute_render (slashes_absolute hp) (parts p)
    unfold pure
    dsimp only
    split
    · rename_i hNil
      rw [hNil] at hRender
      cases hRender
    · exact hRender

theorem isAbsolute_join {p q : Str} (hp : p ≠ []) (hq : q.head? ≠ some '/') :
    isAbsolute (join p q) = isAbsolute p := by
  obtain ⟨c, p, rfl⟩ := List.exists_cons_of_ne_nil hp
  rw [join, if_neg hq]
  split
  · rfl
  · rfl

theorem Plain.segment {c : Str} (h : Plain c) : c ≠ [] ∧ c ≠ ['.'] ∧ '/' ∉ c :=
  ⟨h.1, h.2.1, h.2.2.2⟩

/-! ## The kernel -/

/-- Whether a path begins with a slash, and its names. -/
def resolve (path : Bytes) : Bool × List Bytes :=
  (path.head? = some 0x2F, segments 0x2F 0x2E path)

theorem slash_notMem_encode {c : Str} (h : '/' ∉ c) : 0x2F ∉ Utf8.encode c := by
  intro hMem
  obtain ⟨x, hx, hCode⟩ := Utf8.mem_encode hMem (by decide)
  have hSlash : x = '/' := Char.toNat_inj.1 hCode
  exact h (hSlash ▸ hx)

theorem encode_intercalate (cs : List Str) :
    Utf8.encode (['/'].intercalate cs) = [0x2F].intercalate (cs.map Utf8.encode) := by
  induction cs with
  | nil => rfl
  | cons c cs ih =>
    cases cs with
    | nil => simp
    | cons d ds =>
      have hTail : (d :: ds).map Utf8.encode ≠ [] := by simp
      rw [List.intercalate_cons_of_ne_nil (List.cons_ne_nil d ds), List.map_cons,
        List.intercalate_cons_of_ne_nil hTail, Utf8.encode_append, Utf8.encode_append, ih]
      rfl

/-- The kernel's names are the encoded names. -/
theorem segments_encode (s : Str) :
    segments 0x2F 0x2E (Utf8.encode s) = (segments '/' '.' s).map Utf8.encode := by
  have hSplit : (Utf8.encode s).splitOn 0x2F = (s.splitOn '/').map Utf8.encode := by
    have hJoin : ['/'].intercalate (s.splitOn '/') = s := List.intercalate_splitOn '/'
    conv_lhs => rw [← hJoin, encode_intercalate]
    refine List.splitOn_intercalate 0x2F (fun l hl => ?_) (by simp [List.splitOn_ne_nil])
    obtain ⟨c, hc, rfl⟩ := List.mem_map.1 hl
    exact slash_notMem_encode (notMem_of_mem_splitOn hc)
  rw [segments, hSplit, List.filter_map]
  refine congrArg (List.map Utf8.encode) (List.filter_congr fun c _ => ?_)
  have hNil : Utf8.encode c = [] ↔ c = [] :=
    ⟨fun h => Utf8.encode_inj h, fun h => h ▸ rfl⟩
  have hDot : Utf8.encode c = [0x2E] ↔ c = ['.'] :=
    ⟨fun h => Utf8.encode_inj h, fun h => h ▸ rfl⟩
  simp only [Function.comp_apply, ne_eq, hNil, hDot]

theorem head?_encode (s : Str) :
    decide ((Utf8.encode s).head? = some 0x2F) = isAbsolute s := by
  cases s with
  | nil => rfl
  | cons c s =>
    by_cases hc : c = '/'
    · subst hc
      rfl
    · have hne : String.utf8EncodeChar c ≠ [] := by
        unfold String.utf8EncodeChar
        dsimp only
        split_ifs <;> simp
      obtain ⟨b, bs, hb⟩ := List.exists_cons_of_ne_nil hne
      have hByte : b ≠ 0x2F := by
        rintro rfl
        have hMem : 0x2F ∈ String.utf8EncodeChar c := by
          rw [hb]
          exact List.mem_cons_self
        exact hc (Char.toNat_inj.1 (Utf8.mem_utf8EncodeChar hMem (by decide)))
      rw [Utf8.encode_cons, hb]
      simp [isAbsolute, hc, hByte]

theorem resolve_encode (s : Str) :
    resolve (Utf8.encode s) = (isAbsolute s, (parts s).map Utf8.encode) :=
  Prod.ext (head?_encode s) (segments_encode s)

/-- **One path.** The kernel reads the path that `pathlib` joins as it reads the directory with
the absolute path behind it. -/
theorem resolve_truediv {r q : Str} (hr : r ≠ []) (hq : q.head? ≠ some '/') :
    resolve (Utf8.encode (truediv r q)) = resolve (Utf8.encode (r ++ '/' :: q)) := by
  have hAbsolute : isAbsolute (r ++ '/' :: q) = isAbsolute r := by
    obtain ⟨c, r, rfl⟩ := List.exists_cons_of_ne_nil hr
    rfl
  have hParts : parts (r ++ '/' :: q) = parts r ++ parts q := segments_append_cons '/' '.' r q
  rw [resolve_encode, resolve_encode, truediv, isAbsolute_pure, parts_pure,
    isAbsolute_join hr hq, parts_join hr hq, hAbsolute, hParts]

end XfceLinux.Lib.Path
