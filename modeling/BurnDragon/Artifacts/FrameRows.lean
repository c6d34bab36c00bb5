import BurnDragon.Artifacts.Avi

/-!
# The rows of a frame chunk

A frame chunk lists the rows of the image from the last one to the first, each with its pixels as
blue, green and red, and with padding up to a multiple of four bytes. `decodeBgr` reads the image
back, and `encodeBgr_eq_ok` says that it is the image that `encode_bgr` was given.
-/

namespace BurnDragon.Artifacts

open Rust Layout List Nat

/-- The width of a padded row in bytes. -/
def rowStride (width : ℕ) : ℕ := (width * 3 + 3) / 4 * 4

theorem le_rowStride (width : ℕ) : width * 3 ≤ rowStride width := by
  rw [rowStride]
  omega

/-- The byte at a position of a frame chunk. -/
def bgrPosition (width height y x c : ℕ) : ℕ := (height - 1 - y) * rowStride width + (x * 3 + c)

/-- The image of a frame chunk. -/
def decodeBgr (width height : ℕ) (data : List UInt8) : List UInt8 :=
  (List.range height).flatMap fun y => (List.range width).flatMap fun x =>
    (List.range 3).map fun c => (data[bgrPosition width height y x (2 - c)]?).getD 0

variable {width height : ℕ}

variable {y x : ℕ}

theorem bgrPosition_lt {c : ℕ} (hy : y < height) (hx : x < width) (hc : c < 3) :
    bgrPosition width height y x c < rowStride width * height := by
  have hrow : x * 3 + c < rowStride width := by
    have hle := le_rowStride width
    omega
  have hy' : height - 1 - y + 1 ≤ height := by omega
  calc bgrPosition width height y x c
      < (height - 1 - y) * rowStride width + rowStride width := Nat.add_lt_add_left hrow _
    _ = (height - 1 - y + 1) * rowStride width := (succ_mul _ _).symm
    _ ≤ height * rowStride width := mul_le_mul_right _ hy'
    _ = rowStride width * height := mul_comm _ _

/-- Two pixels do not share a byte. -/
theorem bgrPosition_inj {y' x' c c' : ℕ} (hy : y < height) (hy' : y' < height) (hx : x < width)
    (hx' : x' < width) (hc : c < 3) (hc' : c' < 3)
    (h : bgrPosition width height y x c = bgrPosition width height y' x' c') :
    y = y' ∧ x = x' ∧ c = c' := by
  have hle := le_rowStride width
  have hrow : x * 3 + c < rowStride width := by omega
  have hrow' : x' * 3 + c' < rowStride width := by omega
  have hpos : 0 < rowStride width := by omega
  rw [bgrPosition, bgrPosition] at h
  have hdiv := congrArg (· / rowStride width) h
  have hmod := congrArg (· % rowStride width) h
  simp only [mul_comm _ (rowStride width), mul_add_div hpos, div_eq_of_lt hrow,
    div_eq_of_lt hrow', add_zero] at hdiv
  simp only [mul_comm _ (rowStride width), mul_add_mod, mod_eq_of_lt hrow,
    mod_eq_of_lt hrow'] at hmod
  omega

/-! ## The loops -/

/-- A loop over a range that keeps an invariant and does not fail. -/
theorem foldlM_range {ε α : Type} {f : α → ℕ → Except ε α} {P : ℕ → α → Prop} {n : ℕ} {a : α}
    (h : P 0 a) (hstep : ∀ k < n, ∀ a, P k a → ∃ b, f a k = .ok b ∧ P (k + 1) b) :
    ∃ b, (List.range n).foldlM f a = .ok b ∧ P n b := by
  induction n with
  | zero => exact ⟨a, rfl, h⟩
  | succ n ih =>
    obtain ⟨b, hb, hPb⟩ := ih fun k hk => hstep k (hk.trans (lt_succ_self n))
    obtain ⟨b', hb', hPb'⟩ := hstep n (lt_succ_self n) b hPb
    refine ⟨b', ?_, hPb'⟩
    rw [range_succ, foldlM_append]
    exact bind_eq_ok.mpr ⟨b, hb, bind_eq_ok.mpr ⟨b', hb', rfl⟩⟩

variable {out : List UInt8}

theorem assign_of_lt {i : ℕ} (h : i < out.length) (value : UInt8) :
    assign out i value = .ok (out.set i value) := if_pos h

variable {frame : ArtifactFrame}

/-- The pixels before pixel `x` of row `y` are in the buffer. -/
structure Written (frame : ArtifactFrame) (y x : ℕ) (out : List UInt8) : Prop where
  length : out.length = rowStride frame.width * frame.height
  pixel : ∀ y' x' c, y' < frame.height → x' < frame.width → c < 3 → y' < y ∨ y' = y ∧ x' < x →
    out[bgrPosition frame.width frame.height y' x' c]? =
      frame.rgb[(y' * frame.width + x') * 3 + (2 - c)]?

/-- The buffer behind one pixel. -/
theorem getElem?_set_pixel {dst : ℕ} (h : dst + 2 < out.length) (blue green red : UInt8) (p : ℕ) :
    (((out.set dst blue).set (dst + 1) green).set (dst + 2) red)[p]? =
      if p = dst + 2 then some red else if p = dst + 1 then some green
      else if p = dst then some blue else out[p]? := by
  simp only [getElem?_set, length_set]
  by_cases h2 : dst + 2 = p
  · subst h2
    rw [if_pos rfl, if_pos h, if_pos rfl]
  · rw [if_neg h2, if_neg (Ne.symm h2)]
    by_cases h1 : dst + 1 = p
    · subst h1
      rw [if_pos rfl, if_pos (by omega), if_pos rfl]
    · rw [if_neg h1, if_neg (Ne.symm h1)]
      by_cases h0 : dst = p
      · subst h0
        rw [if_pos rfl, if_pos (by omega), if_pos rfl]
      · rw [if_neg h0, if_neg (Ne.symm h0)]

section

variable (hrgb : frame.rgb.length = frame.height * frame.width * 3)
include hrgb

theorem src_lt (hy : y < frame.height) (hx : x < frame.width) :
    (y * frame.width + x) * 3 + 2 < frame.rgb.length := by
  have hpixel : y * frame.width + x + 1 ≤ frame.height * frame.width := by
    calc y * frame.width + x + 1 ≤ y * frame.width + frame.width := Nat.add_le_add_left hx _
      _ = (y + 1) * frame.width := (succ_mul _ _).symm
      _ ≤ frame.height * frame.width := mul_le_mul_right _ hy
  omega

theorem encodePixel_eq_ok
    (hy : y < frame.height) (hx : x < frame.width) (h : Written frame y x out) :
    ∃ out', encodePixel frame (rowStride frame.width) y out x = .ok out' ∧
      Written frame y (x + 1) out' := by
  obtain ⟨src, hsrc⟩ : ∃ src, src = (y * frame.width + x) * 3 := ⟨_, rfl⟩
  obtain ⟨dst, hdst⟩ : ∃ dst, dst = (frame.height - 1 - y) * rowStride frame.width + x * 3 :=
    ⟨_, rfl⟩
  have hread : src + 2 < frame.rgb.length := hsrc ▸ src_lt hrgb hy hx
  have hwrite : dst + 2 < out.length := by
    have hlt := bgrPosition_lt hy hx (lt_succ_self 2)
    rwa [bgrPosition, ← add_assoc, ← h.length, ← hdst] at hlt
  have hpixel := getElem?_set_pixel hwrite frame.rgb[src + 2] frame.rgb[src + 1] frame.rgb[src]
  refine ⟨((out.set dst frame.rgb[src + 2]).set (dst + 1) frame.rgb[src + 1]).set (dst + 2)
    frame.rgb[src], ?_, ?_, fun y' x' c hy' hx' hc hbefore => ?_⟩
  · rw [encodePixel, ← hsrc, ← hdst, index_of_lt hread, index_of_lt (by omega),
      index_of_lt (by omega)]
    simp only [bind, Except.bind]
    rw [assign_of_lt (by omega)]
    simp only []
    rw [assign_of_lt (by rw [length_set]; omega)]
    simp only []
    rw [assign_of_lt (by rwa [length_set, length_set])]
  · rw [length_set, length_set, length_set, h.length]
  · rw [hpixel]
    by_cases hnew : y' = y ∧ x' = x
    · -- the pixel that is written now
      obtain ⟨rfl, rfl⟩ := hnew
      have hpos : bgrPosition frame.width frame.height y' x' c = dst + c := by
        rw [bgrPosition, hdst, add_assoc]
      rw [hpos, ← hsrc]
      obtain rfl | rfl | rfl : c = 0 ∨ c = 1 ∨ c = 2 := by omega
      all_goals simp
    · have hne : ∀ d < 3, bgrPosition frame.width frame.height y' x' c ≠ dst + d := by
        intro d hd heq
        rw [hdst, add_assoc] at heq
        obtain ⟨hy'', hx'', -⟩ := bgrPosition_inj hy' hy hx' hx hc hd heq
        exact hnew ⟨hy'', hx''⟩
      have hne₀ : bgrPosition frame.width frame.height y' x' c ≠ dst := hne 0 (by omega)
      rw [if_neg (hne 2 (by omega)), if_neg (hne 1 (by omega)), if_neg hne₀]
      exact h.pixel y' x' c hy' hx' hc (by omega)

theorem encodeBgr_written :
    ∃ out, encodeBgr frame (rowStride frame.width) = .ok out ∧
      Written frame frame.height 0 out := by
  have hstart : Written frame 0 0 (List.replicate (rowStride frame.width * frame.height) 0) :=
    ⟨length_replicate, fun y' x' c _ _ _ h => by omega⟩
  refine foldlM_range (P := fun y => Written frame y 0) hstart fun y hy out h => ?_
  obtain ⟨out', hout', hwritten⟩ :=
    foldlM_range h fun x hx out hout => encodePixel_eq_ok hrgb hy hx hout
  refine ⟨out', hout', hwritten.length, fun y' x' c hy' hx' hc hbefore => ?_⟩
  exact hwritten.pixel y' x' c hy' hx' hc (by omega)

end

/-! ## The image -/

/-- An image is its bytes in order. -/
theorem flatMap_rgb {rgb : List UInt8} (h : rgb.length = height * width * 3) :
    ((List.range height).flatMap fun y => (List.range width).flatMap fun x =>
      (List.range 3).map fun c => (rgb[(y * width + x) * 3 + c]?).getD 0) = rgb := by
  have hpixels := flatMap_range_blocks (fun i => i) height width
  have hbytes := flatMap_range_blocks (fun i => (rgb[i]?).getD 0) (height * width) 3
  have hall := map_getD_range rgb 0 h.le
  rw [h, Nat.sub_self, replicate_zero, append_nil] at hall
  rw [map_id'] at hpixels
  rw [hall, ← hpixels, flatMap_assoc] at hbytes
  simpa only [flatMap_map] using hbytes

/-- **A frame chunk holds the image.** It has the declared size, and reading it back returns the
bytes of the frame. -/
theorem encodeBgr_eq_ok (hrgb : frame.rgb.length = frame.height * frame.width * 3) :
    ∃ out, encodeBgr frame (rowStride frame.width) = .ok out ∧
      out.length = rowStride frame.width * frame.height ∧
      decodeBgr frame.width frame.height out = frame.rgb := by
  obtain ⟨out, hout, hwritten⟩ := encodeBgr_written hrgb
  refine ⟨out, hout, hwritten.length, ?_⟩
  conv_rhs => rw [← flatMap_rgb hrgb]
  refine flatMap_congr fun y hy => flatMap_congr fun x hx =>
    map_congr_left fun c hc => ?_
  have hy' := mem_range.mp hy
  have hc' := mem_range.mp hc
  rw [hwritten.pixel y x (2 - c) hy' (mem_range.mp hx) (by omega) (.inl hy')]
  congr 4
  omega

end BurnDragon.Artifacts
