import XfceLinux.Lib.Lines
import XfceLinux.Luks.Unlock

/-!
# Where the pixels of a screendump begin

`qemu_screendump` takes the pixels to begin behind the first `255\n` of the file. The first
place where these bytes can stand is the end of the line with the dimensions, and they do
stand there when the decimal digits of the height end in 255. Then the maximal value is read
as the first four bytes of the pixels and every sample is shifted (`brightness_exact_iff`).
-/

namespace XfceLinux.Luks

open Lib Lib.Text

/-- The digits of a number. -/
def decimal (n : Nat) : Bytes := ascii (toString n)

/-- A P6 file: `P6`, the dimensions, the maximal value and the pixels. -/
def ppm (width height : Nat) (pixels : Bytes) : Bytes :=
  ascii "P6" ++ 10 :: (decimal width ++ 32 :: decimal height ++ 10 :: (ascii "255" ++ 10 :: pixels))

/-- The average of the bytes at the indices 0, 100, 200, ..., not rounded to a double. -/
def average (pixels : Bytes) : ℚ :=
  (∑ i ∈ Finset.range ((pixels.length + 99) / 100), ((pixels.getD (100 * i) 0).toNat : ℚ)) /
    ((pixels.length + 99) / 100 : ℕ)

/-! ## The samples -/

theorem sampled_eq (pixels : Bytes) :
    sampled pixels =
      (List.range ((pixels.length + 99) / 100)).map fun i => pixels.getD (100 * i) 0 := by
  have hlength : pixels.length =
      (pixels.length + 99) / 100 + (pixels.length - (pixels.length + 99) / 100) := by
    omega
  have hbefore : (List.range ((pixels.length + 99) / 100)).filterMap
      (fun i => pixels[100 * i]?) =
        (List.range ((pixels.length + 99) / 100)).map fun i => pixels.getD (100 * i) 0 := by
    rw [← List.filterMap_eq_map]
    apply List.filterMap_congr
    intro i hi
    rw [List.mem_range] at hi
    have hlt : 100 * i < pixels.length := by omega
    simp [hlt]
  have hbehind : ((List.range (pixels.length - (pixels.length + 99) / 100)).map
      ((pixels.length + 99) / 100 + ·)).filterMap (fun i => pixels[100 * i]?) = [] := by
    rw [List.filterMap_eq_nil_iff]
    intro i hi
    obtain ⟨j, -, rfl⟩ := List.mem_map.mp hi
    rw [List.getElem?_eq_none_iff]
    omega
  rw [sampled]
  conv_lhs => rw [hlength]
  rw [List.range_add, List.filterMap_append, hbefore, hbehind, List.append_nil]

theorem sampled_average (pixels : Bytes) :
    (((sampled pixels).map UInt8.toNat).sum : ℚ) / (sampled pixels).length = average pixels := by
  have hsum : (((sampled pixels).map UInt8.toNat).sum : ℚ) =
      ∑ i ∈ Finset.range ((pixels.length + 99) / 100),
        ((pixels.getD (100 * i) 0).toNat : ℚ) := by
    rw [sampled_eq, List.map_map, ← Nat.cast_sum]
    rfl
  rw [hsum, sampled_eq, List.length_map, List.length_range, average]

/-! ## The first `255\n` -/

/-- Line by line, the bytes stand at the end of the first line that ends in 255. -/
theorem headerEnd_line {line : Bytes} (hline : 10 ∉ line) (rest : Bytes) :
    headerEnd (line ++ 10 :: rest) =
      if ascii "255" <:+ line then some (line.length + 1)
      else (headerEnd rest).map (· + (line.length + 1)) := by
  have hBytes : ascii "255\n" = ascii "255" ++ [10] := by decide
  have h255 : 10 ∉ ascii "255" := by decide
  have hPrefix : ∀ s : Bytes, 10 ∉ s →
      ((ascii "255\n").isPrefixOf (s ++ 10 :: rest) = true ↔ s = ascii "255") := by
    intro s hs
    rw [List.isPrefixOf_iff_prefix, hBytes]
    constructor
    · rintro ⟨t, ht⟩
      rw [List.append_assoc, List.singleton_append] at ht
      exact (Lines.append_cons_inj h255 hs ht).1.symm
    · rintro rfl
      exact ⟨rest, by rw [List.append_assoc, List.singleton_append]⟩
  induction line with
  | nil =>
    have hno : ¬ (ascii "255\n").isPrefixOf ([] ++ 10 :: rest) = true := by
      rw [hPrefix [] (by simp)]
      decide
    rw [List.nil_append] at hno ⊢
    rw [headerEnd, if_neg hno, if_neg (by decide)]
    rfl
  | cons b line ih =>
    have hrest : 10 ∉ line := fun hmem => hline (List.mem_cons_of_mem b hmem)
    have hb := hPrefix (b :: line) hline
    rw [List.cons_append] at hb ⊢
    rw [headerEnd]
    split
    · rename_i hhere
      have hline255 := hb.mp hhere
      rw [if_pos (hline255 ▸ List.suffix_rfl), hline255]
      rfl
    · rename_i hhere
      have hne : ascii "255" ≠ b :: line := fun he => hhere (hb.mpr he.symm)
      rw [ih hrest]
      simp only [List.suffix_cons_iff, hne, false_or, List.length_cons]
      split
      · rfl
      · rw [Option.map_map]
        rfl

/-! ## The height -/

theorem decimal_eq (n : Nat) :
    decimal n = (if n < 10 then [] else decimal (n / 10)) ++ [UInt8.ofNat (48 + n % 10)] := by
  have hDigit : ∀ d < 10, (Nat.digitChar d).toNat = 48 + d := by decide
  have hlt : n % 10 < 10 := Nat.mod_lt n (by omega)
  simp only [decimal, ascii, Nat.toString_eq_ofList_toDigits, String.toList_ofList]
  conv_lhs => rw [Nat.toDigits_eq_if (by omega)]
  split
  · rename_i h
    rw [List.map_singleton, hDigit n h, List.nil_append, Nat.mod_eq_of_lt h]
  · rw [List.map_append, List.map_singleton, hDigit _ hlt]

theorem suffix_decimal_iff {d : Nat} (hd : d < 10) (l : Bytes) (n : Nat) :
    l ++ [UInt8.ofNat (48 + d)] <:+ decimal n ↔
      n % 10 = d ∧ l <:+ if n < 10 then [] else decimal (n / 10) := by
  have hlt : n % 10 < 10 := Nat.mod_lt n (by omega)
  have hbyte : UInt8.ofNat (48 + d) = UInt8.ofNat (48 + n % 10) ↔ n % 10 = d := by
    constructor
    · intro h
      have := congrArg UInt8.toNat h
      simp only [UInt8.toNat_ofNat'] at this
      omega
    · rintro rfl
      rfl
  rw [decimal_eq, List.suffix_concat_iff, ← hbyte]
  simp

theorem ends_in_255_iff (n : Nat) : ascii "255" <:+ decimal n ↔ n % 1000 = 255 := by
  have h5 : ascii "255" = [50, 53] ++ [UInt8.ofNat (48 + 5)] := by decide
  have h25 : ([50, 53] : Bytes) = [50] ++ [UInt8.ofNat (48 + 5)] := by decide
  have h2 : ([50] : Bytes) = [] ++ [UInt8.ofNat (48 + 2)] := by decide
  rw [h5, suffix_decimal_iff (by omega)]
  by_cases hn : n < 10
  · rw [if_pos hn]
    simp
    omega
  rw [if_neg hn, h25, suffix_decimal_iff (by omega)]
  by_cases hn' : n / 10 < 10
  · rw [if_pos hn']
    simp
    omega
  rw [if_neg hn', h2, suffix_decimal_iff (by omega)]
  simp only [List.nil_suffix, and_true]
  omega

theorem notMem_decimal {b : UInt8} (hb : b.toNat < 48) (n : Nat) : b ∉ decimal n := by
  induction n using Nat.strong_induction_on with
  | _ n ih =>
    have hdigit : b ≠ UInt8.ofNat (48 + n % 10) := by
      rintro rfl
      rw [UInt8.toNat_ofNat'] at hb
      omega
    rw [decimal_eq, List.mem_append, List.mem_singleton, not_or]
    refine ⟨?_, hdigit⟩
    split
    · exact List.not_mem_nil
    · exact ih (n / 10) (by omega)

/-! ## The header -/

/-- The line with the dimensions ends in the last digits of the height. -/
theorem dimensions_iff (width height : Nat) :
    ascii "255" <:+ decimal width ++ 32 :: decimal height ↔ height % 1000 = 255 := by
  rw [← ends_in_255_iff]
  have h32 : 32 ∉ ascii "255" := by decide
  constructor
  · intro h
    have hheight : 32 :: decimal height <:+ decimal width ++ 32 :: decimal height :=
      List.suffix_append _ _
    rcases List.suffix_or_suffix_of_suffix h hheight with h255 | hspace
    · refine (List.suffix_cons_iff.mp h255).resolve_left ?_
      intro he
      exact h32 (he ▸ List.mem_cons_self)
    · exact absurd (hspace.subset List.mem_cons_self) h32
  · intro h
    exact h.trans ⟨decimal width ++ [32], by simp⟩

theorem notMem_dimensions (width height : Nat) :
    10 ∉ decimal width ++ 32 :: decimal height := by
  rw [List.mem_append, List.mem_cons, not_or, not_or]
  exact ⟨notMem_decimal (by decide) width, by decide, notMem_decimal (by decide) height⟩

theorem drop_line (line rest : Bytes) (n : Nat) :
    (line ++ 10 :: rest).drop (n + (line.length + 1)) = rest.drop n := by
  rw [Nat.add_comm, ← List.drop_drop, ← List.drop_drop, List.drop_left]
  rfl

/-- What is taken for the pixels. -/
theorem exists_headerEnd (width height : Nat) (pixels : Bytes) :
    ∃ n, headerEnd (ppm width height pixels) = some n ∧
      (ppm width height pixels).drop n =
        if height % 1000 = 255 then ascii "255" ++ 10 :: pixels else pixels := by
  have hmagic : 10 ∉ ascii "P6" := by decide
  have h255 : 10 ∉ ascii "255" := by decide
  rw [ppm, headerEnd_line hmagic, if_neg (by decide),
    headerEnd_line (notMem_dimensions width height)]
  simp only [dimensions_iff]
  split
  · refine ⟨_, rfl, ?_⟩
    rw [drop_line, ← Nat.zero_add (_ + 1), drop_line, List.drop_zero]
  · rw [headerEnd_line h255, if_pos List.suffix_rfl]
    refine ⟨_, rfl, ?_⟩
    rw [drop_line, drop_line, ← Nat.zero_add (_ + 1), drop_line, List.drop_zero]

theorem brightness_ppm (hexdigest : Bytes → { s : Str // s ≠ [] }) (width height : Nat)
    {pixels : Bytes} (hpixels : pixels ≠ []) :
    (qemu_screendump hexdigest (some (ppm width height pixels))).brightness =
      if height % 1000 = 255 then average (ascii "255" ++ 10 :: pixels) else average pixels := by
  obtain ⟨n, hn, hdrop⟩ := exists_headerEnd width height pixels
  have hne : (ppm width height pixels).drop n ≠ [] := by
    rw [hdrop]
    split
    · simp
    · exact hpixels
  simp only [qemu_screendump, hn, if_neg hne]
  rw [sampled_average, hdrop]
  split <;> rfl

/-! ## The brightness -/

/-- **When the brightness is that of the pixels**: when the height does not end in the digits
255, and otherwise when the four bytes too many leave the average as it is. -/
theorem brightness_exact_iff (hexdigest : Bytes → { s : Str // s ≠ [] }) {width height : Nat}
    (hwidth : 0 < width) (hheight : 0 < height) {pixels : Bytes}
    (hpixels : pixels.length = 3 * width * height) :
    (qemu_screendump hexdigest (some (ppm width height pixels))).brightness = average pixels ↔
      height % 1000 ≠ 255 ∨ average (ascii "255" ++ 10 :: pixels) = average pixels := by
  have hne : pixels ≠ [] := by
    rw [← List.length_pos_iff, hpixels]
    positivity
  rw [brightness_ppm hexdigest width height hne]
  split
  · rename_i h
    simp [h]
  · rename_i h
    simp [h]

/-- A digest with one digit. -/
def digest (_ : Bytes) : { s : Str // s ≠ [] } := ⟨['0'], by simp⟩

/-- Ten by twenty pixels, the upper half of them dim. -/
def halfDim : Bytes := List.replicate 300 9 ++ List.replicate 300 0

theorem average_halfDim : average halfDim = 9 / 2 := by
  have hsamples : (List.range 6).map (fun i => halfDim.getD (100 * i) 0) = [9, 9, 9, 0, 0, 0] := by
    decide +kernel
  rw [← sampled_average, sampled_eq, show (halfDim.length + 99) / 100 = 6 from by decide +kernel,
    hsamples]
  have hsum : (([9, 9, 9, 0, 0, 0] : List UInt8).map UInt8.toNat).sum = 27 := rfl
  rw [hsum]
  norm_num

theorem brightness_exact_iff_halfDim :
    (qemu_screendump digest (some (ppm 10 20 halfDim))).brightness = 9 / 2 := by
  have hexact := (brightness_exact_iff digest (by decide : 0 < 10) (by decide : 0 < 20)
    (by decide +kernel : halfDim.length = 3 * 10 * 20)).mpr (.inl (by decide))
  rw [hexact, average_halfDim]

theorem average_black (n : Nat) : average (List.replicate n 0) = 0 := by
  rw [average, Finset.sum_eq_zero, zero_div]
  intro i _
  rw [List.getD_eq_getElem?_getD, List.getElem?_replicate]
  split <;> rfl

theorem average_shifted_pos (n : Nat) :
    0 < average (ascii "255" ++ 10 :: List.replicate n 0) := by
  have hlength : 0 < ((ascii "255" ++ 10 :: List.replicate n 0).length + 99) / 100 := by
    rw [List.length_append, List.length_cons]
    omega
  apply div_pos
  · apply Finset.sum_pos'
    · intro i _
      positivity
    · exact ⟨0, Finset.mem_range.mpr hlength, by simp [ascii]⟩
  · exact Nat.cast_pos.mpr hlength

/-- A black screen of height 255 does not look black. -/
theorem black_screen_shifted : ¬ ∀ width height : Nat, 0 < width → 0 < height →
    ∀ pixels : Bytes, pixels.length = 3 * width * height →
      (qemu_screendump digest (some (ppm width height pixels))).brightness = average pixels := by
  intro h
  have hlength : (List.replicate 765 (0 : UInt8)).length = 3 * 1 * 255 := List.length_replicate
  have hne : List.replicate 765 (0 : UInt8) ≠ [] := by
    rw [Ne, List.replicate_eq_nil_iff]
    omega
  have hblack := h 1 255 (by omega) (by omega) _ hlength
  rw [brightness_ppm digest 1 255 hne, if_pos (by omega), average_black] at hblack
  exact (average_shifted_pos 765).ne' hblack

end XfceLinux.Luks
