import Prose.PaneShader
import Prose.PrdsTraps
import Mathlib.Data.Rat.Floor
/-!
# PaneReads — where a pane's shader reads

The checks of `paneCreate` and `panePresent` keep the palette and the descriptors in the pool, and every buffer too.  They
do not compare a line with its stride, and nobody looks at what a descriptor says: `reads_inside` names what is missing.
-/
namespace Prose
namespace Prds

open Trapping List
open PRDSDevice (Admitted PaneOk paletteWords)

def Read.start : Read → Nat
  | .byte _ i => i.toNat
  | .word _ i => 4 * i.toNat

def Read.stop : Read → Nat
  | .byte _ i => i.toNat + 1
  | .word _ i => 4 * i.toNat + 4

def Read.kind : Read → Kind
  | .byte k _ => k
  | .word k _ => k

/-- **In the pool, and what is read of the world or the front plane in the buffer that is shown.** -/
structure Read.Inside (poolSize : Nat) (p : PaneState) (r : Read) : Prop where
  pool : r.stop ≤ poolSize
  world : r.kind = .world → p.liveOffset ≤ r.start ∧ r.stop ≤ p.liveOffset + p.bufferStride
  front : r.kind = .front → p.liveFront ≤ r.start ∧ r.stop ≤ p.liveFront + p.bufferStride

section

variable {F : Type} (M : Metal F)

def last (on : Bool) (size : UInt32) : UInt32 := if on then M.toUInt (M.sub (M.ofUInt size) M.one) else size - 1

def SpriteOk (poolSize : Nat) (d : Sprite) : Prop :=
  d.skipped M = false → ∀ x row, x ≤ last M (d.flags &&& 2 ≠ 0) d.width → row ≤ last M (d.flags &&& 4 ≠ 0) d.height →
    (d.address x row).toNat < poolSize

/-- **A pane that can be drawn**: the last line of its planes ends in its buffer, which a word can address, and its sprites
lie in the pool. -/
structure Drawable (poolSize : Nat) (pool : Nat → UInt8) (p : PaneState) : Prop where
  indexed : p.format ≠ 2 → (p.worldHeight - 1) * p.stride + p.worldWidth ≤ p.bufferStride
  direct : p.format = 2 →
    p.liveOffset % 4 = 0 ∧ 4 * ((p.worldHeight - 1) * p.stride / 4 + p.worldWidth) ≤ p.bufferStride
  front : p.frontOffset ≠ 0 → (p.worldHeight - 1) * p.stride + p.worldWidth ≤ p.bufferStride
  low : p.liveOffset + p.bufferStride ≤ 4294967296 ∧ p.liveFront + p.bufferStride ≤ 4294967296
  sprites : ∀ i < p.spriteCount, SpriteOk M poolSize (spriteAt pool (.ofNat (p.spriteOffset / 4) + .ofNat i * 12))

/-! ## The uniforms -/

structure Uniform (pp : PaneParams F) (p : PaneState) : Prop where
  worldWidth : pp.worldWidth.toNat = p.worldWidth
  worldHeight : pp.worldHeight.toNat = p.worldHeight
  strideBytes : pp.strideBytes.toNat = p.stride
  bufferOffset : pp.bufferOffset.toNat = p.liveOffset
  paletteWords : pp.paletteWords.toNat = p.paletteOffset / 4
  spriteCount : pp.spriteCount.toNat = p.spriteCount
  spriteWords : pp.spriteWords = .ofNat (p.spriteOffset / 4) ∧ pp.spriteWords.toNat = p.spriteOffset / 4
  frontOffset : pp.frontOffset.toNat = p.liveFront
  format : pp.format = p.format

theorem toU32_eq_some {n : Nat} {u : UInt32} (h : toU32 n = some u) : u = .ofNat n ∧ u.toNat = n := by
  obtain ⟨hn, rfl⟩ := when_eq_some.1 h
  exact ⟨rfl, UInt32.toNat_ofNat_of_lt' hn⟩

theorem paneParams_uniform {p : PaneState} {fit : Option (Fit F)} {pp : PaneParams F} (h : paneParams M p fit = some pp) :
    Uniform pp p := by
  unfold paneParams at h
  obtain ⟨_, h1, h⟩ := Option.bind_eq_some_iff.1 h
  obtain ⟨_, h2, h⟩ := Option.bind_eq_some_iff.1 h
  obtain ⟨_, h3, h⟩ := Option.bind_eq_some_iff.1 h
  obtain ⟨_, h4, h⟩ := Option.bind_eq_some_iff.1 h
  obtain ⟨_, h5, h⟩ := Option.bind_eq_some_iff.1 h
  obtain ⟨_, -, h⟩ := Option.bind_eq_some_iff.1 h
  obtain ⟨_, -, h⟩ := Option.bind_eq_some_iff.1 h
  obtain ⟨_, h8, h⟩ := Option.bind_eq_some_iff.1 h
  obtain ⟨_, h9, h⟩ := Option.bind_eq_some_iff.1 h
  obtain ⟨_, h10, h⟩ := Option.bind_eq_some_iff.1 h
  obtain ⟨_, -, h⟩ := Option.bind_eq_some_iff.1 h
  obtain ⟨_, -, h⟩ := Option.bind_eq_some_iff.1 h
  cases h
  exact ⟨(toU32_eq_some h1).2, (toU32_eq_some h2).2, (toU32_eq_some h3).2, (toU32_eq_some h4).2, (toU32_eq_some h5).2,
    (toU32_eq_some h8).2, toU32_eq_some h9, (toU32_eq_some h10).2, rfl⟩

/-! ## Words -/

theorem toNat_add_le (a b : UInt32) : (a + b).toNat ≤ a.toNat + b.toNat := by
  rw [UInt32.toNat_add]
  exact Nat.mod_le _ _

theorem toNat_mul_le (a b : UInt32) : (a * b).toNat ≤ a.toNat * b.toNat := by
  rw [UInt32.toNat_mul]
  exact Nat.mod_le _ _

theorem toNat_umin (a b : UInt32) : (min a b).toNat = min a.toNat b.toNat := by
  change (if a ≤ b then a else b).toNat = _
  split
  · rename_i h
    exact (Nat.min_eq_left (UInt32.le_iff_toNat_le.1 h)).symm
  · rename_i h
    exact (Nat.min_eq_right (Nat.le_of_not_le fun hle => h (UInt32.le_iff_toNat_le.2 hle))).symm

theorem toNat_line {a b c : UInt32} (h : a.toNat + b.toNat * c.toNat < 4294967296) :
    (a + b * c).toNat = a.toNat + b.toNat * c.toNat := by
  rw [UInt32.toNat_add, UInt32.toNat_mul, Nat.mod_eq_of_lt (Nat.lt_of_le_of_lt (Nat.le_add_left _ _) h), Nat.mod_eq_of_lt h]

theorem toNat_line_add {a b c d : UInt32} (h : a.toNat + b.toNat * c.toNat + d.toNat < 4294967296) :
    (a + b * c + d).toNat = a.toNat + b.toNat * c.toNat + d.toNat := by
  have hl := @toNat_line a b c (by omega)
  rw [UInt32.toNat_add, hl, Nat.mod_eq_of_lt h]

/-! ## Palettes -/

section

variable {pp : PaneParams F} {poolSize : Nat} {p : PaneState} (ha : Admitted poolSize p)
include ha

theorem palette_inside {kind : Kind} (hk : kind = .palette ∨ kind = .scanline) {i : UInt32}
    (hi : i.toNat < p.paletteOffset / 4 + paletteWords p.worldHeight) : (Read.word kind i).Inside poolSize p := by
  have hpal := ha.palette
  refine ⟨?_, fun h => ?_, fun h => ?_⟩
  · change 4 * i.toNat + 4 ≤ poolSize
    omega
  · rcases hk with rfl | rfl <;> exact nomatch h
  · rcases hk with rfl | rfl <;> exact nomatch h

theorem lookup_inside (hu : Uniform pp p) {index row : UInt32} (hi : index.toNat < 256) :
    ∀ r ∈ lookup pp index row, r.Inside poolSize p := by
  intro r hr
  have hpal : paletteWords p.worldHeight = 256 + p.worldHeight * 16 + 64 * 16 + 16 := rfl
  have hw := hu.paletteWords
  unfold lookup at hr
  split at hr
  · exact absurd hr not_mem_nil
  split at hr
  · rename_i hrow
    rw [mem_singleton.1 hr]
    refine palette_inside ha (Or.inr rfl) ?_
    have h16 : index.toNat < 16 := UInt32.lt_iff_toNat_lt.1 hrow.1
    have hone : (1 : UInt32) ≤ pp.worldHeight := by
      rw [UInt32.le_iff_toNat_le, hu.worldHeight]
      exact ha.world.2
    have hmin : (min row (pp.worldHeight - 1)).toNat ≤ p.worldHeight - 1 := by
      rw [toNat_umin, UInt32.toNat_sub_of_le _ _ hone, hu.worldHeight]
      exact Nat.min_le_right _ _
    have h1 := toNat_add_le (pp.paletteWords + 256 + min row (pp.worldHeight - 1) * 16) index
    have h2 := toNat_add_le (pp.paletteWords + 256) (min row (pp.worldHeight - 1) * 16)
    have h3 : (pp.paletteWords + 256).toNat ≤ pp.paletteWords.toNat + 256 := toNat_add_le pp.paletteWords 256
    have h4 : (min row (pp.worldHeight - 1) * 16).toNat ≤ (min row (pp.worldHeight - 1)).toNat * 16 := toNat_mul_le _ 16
    have hpos := ha.world.2
    omega
  · rw [mem_singleton.1 hr]
    refine palette_inside ha (Or.inl rfl) ?_
    have := toNat_add_le pp.paletteWords index
    omega

theorem spriteColour_inside (hu : Uniform pp p) {index palette : UInt32} (hp : palette.toNat ≤ 63) :
    ∀ r ∈ spriteColour pp index palette, r.Inside poolSize p := by
  intro r hr
  have hpal : paletteWords p.worldHeight = 256 + p.worldHeight * 16 + 64 * 16 + 16 := rfl
  have hw := hu.paletteWords
  unfold spriteColour at hr
  split at hr
  · exact absurd hr not_mem_nil
  split at hr
  · rw [mem_singleton.1 hr]
    refine palette_inside ha (Or.inl rfl) ?_
    have h1 := toNat_add_le pp.paletteWords (min index 255)
    have h2 : (min index 255).toNat ≤ 255 := by
      rw [toNat_umin]
      exact Nat.min_le_right _ _
    omega
  · rw [mem_singleton.1 hr]
    refine palette_inside ha (Or.inl rfl) ?_
    have h1 := toNat_add_le (pp.paletteWords + 256 + pp.worldHeight * 16 + palette * 16) (index &&& 15)
    have h2 := toNat_add_le (pp.paletteWords + 256 + pp.worldHeight * 16) (palette * 16)
    have h3 := toNat_add_le (pp.paletteWords + 256) (pp.worldHeight * 16)
    have h4 : (pp.paletteWords + 256).toNat ≤ pp.paletteWords.toNat + 256 := toNat_add_le pp.paletteWords 256
    have h5 : (palette * 16).toNat ≤ palette.toNat * 16 := toNat_mul_le palette 16
    have h6 : (pp.worldHeight * 16).toNat ≤ pp.worldHeight.toNat * 16 := toNat_mul_le pp.worldHeight 16
    have h7 : (index &&& 15).toNat ≤ 15 := by
      rw [UInt32.toNat_and]
      exact Nat.and_le_right
    have hh := hu.worldHeight
    omega

end

/-! ## The world and the front plane -/

theorem toUInt_within {f : F} {n : UInt32} (hz : M.le M.zero f = true) (hn : M.lt f (M.ofUInt n) = true) (h0 : n.toNat ≠ 0) :
    (M.toUInt f).toNat < n.toNat := by
  refine UInt32.lt_iff_toNat_lt.1 (M.toUInt_lt (M.not_lt_of_le hz) (M.not_le_of_lt hn) ?_)
  rintro rfl
  exact h0 rfl

theorem live_index {p : PaneState} (hs : p.bufferIndex < p.buffers) :
    min p.bufferIndex (max (p.buffers - 1) 0) = p.bufferIndex := by
  omega

theorem liveOffset_inside {poolSize : Nat} {p : PaneState} (h : PaneOk poolSize p) :
    p.liveOffset + p.bufferStride ≤ poolSize := by
  have hplanes := h.admitted.planes
  have hmul : (p.bufferIndex + 1) * p.bufferStride ≤ p.buffers * p.bufferStride := Nat.mul_le_mul_right _ h.shown
  rw [Nat.add_mul, Nat.one_mul] at hmul
  rw [Nat.mul_comm] at hplanes
  unfold PaneState.liveOffset
  rw [live_index h.shown]
  omega

theorem liveFront_inside {poolSize : Nat} {p : PaneState} (h : PaneOk poolSize p) (hf : p.frontOffset ≠ 0) :
    p.liveFront + p.bufferStride ≤ poolSize := by
  have hplanes := h.admitted.front.resolve_left hf
  have hmul : (p.bufferIndex + 1) * p.bufferStride ≤ p.buffers * p.bufferStride := Nat.mul_le_mul_right _ h.shown
  rw [Nat.add_mul, Nat.one_mul] at hmul
  rw [Nat.mul_comm] at hplanes
  unfold PaneState.liveFront
  rw [if_neg hf, live_index h.shown]
  omega

section

variable {pp : PaneParams F} {poolSize : Nat} {pool : Nat → UInt8} {p : PaneState}

theorem plane_index {p : PaneState} {offset row column : UInt32} {base : Nat} (hu : Uniform pp p) (ho : offset.toNat = base)
    (hline : (p.worldHeight - 1) * p.stride + p.worldWidth ≤ p.bufferStride) (hlow : base + p.bufferStride ≤ 4294967296)
    (hr : row.toNat < p.worldHeight) (hc : column.toNat < p.worldWidth) :
    base ≤ (offset + row * pp.strideBytes + column).toNat ∧
      (offset + row * pp.strideBytes + column).toNat < base + p.bufferStride := by
  have hrow : row.toNat * p.stride ≤ (p.worldHeight - 1) * p.stride := Nat.mul_le_mul_right _ (by omega)
  have hi : (offset + row * pp.strideBytes + column).toNat = base + row.toNat * p.stride + column.toNat := by
    rw [toNat_line_add, ho, hu.strideBytes]
    rw [ho, hu.strideBytes]
    omega
  omega

theorem plane_word {p : PaneState} {row column : UInt32} (hu : Uniform pp p) (halign : p.liveOffset % 4 = 0)
    (hline : 4 * ((p.worldHeight - 1) * p.stride / 4 + p.worldWidth) ≤ p.bufferStride)
    (hlow : p.liveOffset + p.bufferStride ≤ 4294967296) (hr : row.toNat < p.worldHeight)
    (hc : column.toNat < p.worldWidth) :
    p.liveOffset ≤ 4 * ((pp.bufferOffset + row * pp.strideBytes) / 4 + column).toNat ∧
      4 * ((pp.bufferOffset + row * pp.strideBytes) / 4 + column).toNat + 4 ≤ p.liveOffset + p.bufferStride := by
  have hrow : row.toNat * p.stride ≤ (p.worldHeight - 1) * p.stride := Nat.mul_le_mul_right _ (by omega)
  have hline' : (pp.bufferOffset + row * pp.strideBytes).toNat = p.liveOffset + row.toNat * p.stride := by
    rw [toNat_line, hu.bufferOffset, hu.strideBytes]
    rw [hu.bufferOffset, hu.strideBytes]
    omega
  have hdiv : ((pp.bufferOffset + row * pp.strideBytes) / 4).toNat = (p.liveOffset + row.toNat * p.stride) / 4 := by
    rw [UInt32.toNat_div, hline']
    rfl
  have hi : ((pp.bufferOffset + row * pp.strideBytes) / 4 + column).toNat =
      (p.liveOffset + row.toNat * p.stride) / 4 + column.toNat := by
    rw [UInt32.toNat_add, hdiv, Nat.mod_eq_of_lt (by omega)]
  omega

theorem byteAt_lt (i : UInt32) : (byteAt pool i).toNat < 256 := UInt8.toNat_lt _

theorem world_inside (hok : PaneOk poolSize p) (hd : Drawable M poolSize pool p) (hu : Uniform pp p) {row column : UInt32}
    (hr : row.toNat < p.worldHeight) (hc : column.toNat < p.worldWidth) :
    ∀ r ∈ (if pp.format = 2 then [Read.word .world ((pp.bufferOffset + row * pp.strideBytes) / 4 + column)]
      else .byte .world (pp.bufferOffset + row * pp.strideBytes + column) ::
        lookup pp (byteAt pool (pp.bufferOffset + row * pp.strideBytes + column)) row), r.Inside poolSize p := by
  have hpool := liveOffset_inside hok
  intro r hmem
  split at hmem
  · rename_i hformat
    rw [hu.format] at hformat
    obtain ⟨h1, h2⟩ := plane_word hu (hd.direct hformat).1 (hd.direct hformat).2 hd.low.1 hr hc
    rw [mem_singleton.1 hmem]
    refine ⟨?_, fun _ => ⟨h1, h2⟩, fun h => nomatch h⟩
    change 4 * UInt32.toNat _ + 4 ≤ poolSize
    omega
  · rename_i hformat
    rw [hu.format] at hformat
    rcases mem_cons.1 hmem with rfl | hmem
    · obtain ⟨h1, h2⟩ := plane_index hu hu.bufferOffset (hd.indexed hformat) hd.low.1 hr hc
      refine ⟨?_, fun _ => ⟨h1, h2⟩, fun h => nomatch h⟩
      change UInt32.toNat _ + 1 ≤ poolSize
      omega
    · exact lookup_inside hok.admitted hu (byteAt_lt _) r hmem

theorem front_inside (hok : PaneOk poolSize p) (hd : Drawable M poolSize pool p) (hu : Uniform pp p)
    (hfront : pp.frontOffset ≠ 0) {row column : UInt32} (hr : row.toNat < p.worldHeight) (hc : column.toNat < p.worldWidth) :
    ∀ r ∈ Read.byte .front (pp.frontOffset + row * pp.strideBytes + column) ::
      (if byteAt pool (pp.frontOffset + row * pp.strideBytes + column) ≠ 0 then
        [.word .palette (pp.paletteWords + byteAt pool (pp.frontOffset + row * pp.strideBytes + column))] else []),
      r.Inside poolSize p := by
  have hf : p.frontOffset ≠ 0 := by
    intro h0
    refine hfront (UInt32.toNat_inj.1 (hu.frontOffset.trans ?_))
    unfold PaneState.liveFront
    rw [if_pos h0]
    rfl
  have hpool := liveFront_inside hok hf
  intro r hmem
  rcases mem_cons.1 hmem with rfl | hmem
  · obtain ⟨h1, h2⟩ := plane_index hu hu.frontOffset (hd.front hf) hd.low.2 hr hc
    refine ⟨?_, (fun h => nomatch h), fun _ => ⟨h1, h2⟩⟩
    change UInt32.toNat _ + 1 ≤ poolSize
    omega
  split at hmem
  · rw [mem_singleton.1 hmem]
    refine palette_inside hok.admitted (Or.inl rfl) ?_
    have h1 := toNat_add_le pp.paletteWords (byteAt pool (pp.frontOffset + row * pp.strideBytes + column))
    have h2 := @byteAt_lt pool (pp.frontOffset + row * pp.strideBytes + column)
    have h3 : paletteWords p.worldHeight = 256 + p.worldHeight * 16 + 64 * 16 + 16 := rfl
    have h4 := hu.paletteWords
    omega
  · exact absurd hmem not_mem_nil

end

/-! ## Sprites -/

section

variable {pp : PaneParams F} {poolSize : Nat} {pool : Nat → UInt8} {p : PaneState}

theorem descriptor_inside (hok : PaneOk poolSize p) (hu : Uniform pp p) {i : Nat} (hi : i < p.spriteCount) {w : UInt32}
    (hw : w.toNat ≤ (pp.spriteWords + UInt32.ofNat i * 12).toNat + 11) : (Read.word .descriptor w).Inside poolSize p := by
  have h1 := toNat_add_le pp.spriteWords (UInt32.ofNat i * 12)
  have h2 : (UInt32.ofNat i * 12).toNat ≤ (UInt32.ofNat i).toNat * 12 := toNat_mul_le _ 12
  have h3 : (UInt32.ofNat i).toNat ≤ i := Nat.mod_le _ _
  have h4 : p.spriteOffset + p.spriteCount * 48 ≤ poolSize := hok.inside
  have h5 := hok.aligned
  have h6 := hu.spriteWords.2
  refine ⟨?_, (fun h => nomatch h), fun h => nomatch h⟩
  change 4 * w.toNat + 4 ≤ poolSize
  omega

theorem descriptorReads_inside (hok : PaneOk poolSize p) (hu : Uniform pp p) {i : Nat} (hi : i < p.spriteCount) :
    ∀ r ∈ descriptorReads (pp.spriteWords + UInt32.ofNat i * 12), r.Inside poolSize p := by
  intro r hr
  have hword : ∃ k : UInt32, k.toNat ≤ 11 ∧ r = .word .descriptor (pp.spriteWords + UInt32.ofNat i * 12 + k) := by
    simp only [descriptorReads, mem_cons, not_mem_nil, or_false] at hr
    rcases hr with rfl | hr
    · exact ⟨0, Nat.zero_le _, congrArg _ (UInt32.add_zero _).symm⟩
    · rcases hr with rfl | rfl | rfl | rfl | rfl | rfl | rfl | rfl | rfl <;> exact ⟨_, by decide, rfl⟩
  obtain ⟨k, hk, rfl⟩ := hword
  exact descriptor_inside hok hu hi ((toNat_add_le _ k).trans (Nat.add_le_add_left hk _))

theorem mirror_le_last {on : Bool} {size : UInt32} {f : F} (h0 : M.eq (M.ofUInt size) M.zero = false)
    (hz : M.lt f M.zero = false) (hs : M.le (M.ofUInt size) f = false) : M.toUInt (mirror M on size f) ≤ last M on size := by
  have hne : size ≠ 0 := by
    rintro rfl
    rw [M.eq_zero] at h0
    exact nomatch h0
  unfold mirror last
  cases on with
  | true  => exact M.toUInt_mirror hz hs hne
  | false =>
    have hlt := UInt32.lt_iff_toNat_lt.1 (M.toUInt_lt hz hs hne)
    have hone : (1 : UInt32) ≤ size := UInt32.le_iff_toNat_le.2 (Nat.lt_of_le_of_lt (Nat.zero_le _) hlt)
    have hsub : (size - 1).toNat = size.toNat - 1 := UInt32.toNat_sub_of_le _ _ hone
    refine UInt32.le_iff_toNat_le.2 ?_
    change (M.toUInt f).toNat ≤ (size - 1).toNat
    omega

theorem pixel_inside {d : Sprite} (hs : SpriteOk M poolSize d) (hk : d.skipped M = false) {here : F × F}
    (hc : d.covers M here = true) :
    (Read.byte .pixel (d.address (M.toUInt (mirror M (d.flags &&& 2 ≠ 0) d.width here.1))
      (M.toUInt (mirror M (d.flags &&& 4 ≠ 0) d.height here.2)))).Inside poolSize p := by
  have hsize := hk
  simp only [Sprite.skipped, Bool.or_eq_false_iff] at hsize
  simp only [Sprite.covers, Bool.not_eq_true', Bool.or_eq_false_iff] at hc
  obtain ⟨⟨⟨hx, hy⟩, hw⟩, hh⟩ := hc
  refine ⟨?_, (fun h => nomatch h), fun h => nomatch h⟩
  exact hs hk _ _ (mirror_le_last M hsize.1.1.1 hx hw) (mirror_le_last M hsize.1.1.2 hy hh)

theorem inside_concat {l : List Read} {x : Read} (hl : ∀ r ∈ l, r.Inside poolSize p) (hx : x.Inside poolSize p) :
    ∀ r ∈ l ++ [x], r.Inside poolSize p := by
  intro r hr
  rcases mem_append.1 hr with hr | hr
  · exact hl r hr
  · rw [mem_singleton.1 hr]
    exact hx

/-- **Whatever the sprites are, they are read where the checks and `SpriteOk` say.** By recursion on the sprites still to
be looked at. -/
theorem spriteIndexAt_inside (hok : PaneOk poolSize p) (hd : Drawable M poolSize pool p) (hu : Uniform pp p)
    (world viewPos : F × F) : ∀ n ≤ p.spriteCount, (spriteIndexAt M pp pool world viewPos n).2.1.toNat ≤ 63 ∧
      ∀ r ∈ (spriteIndexAt M pp pool world viewPos n).2.2, r.Inside poolSize p
  | 0, _      => ⟨Nat.zero_le _, fun r hr => absurd hr not_mem_nil⟩
  | i + 1, hi => by
    have hbelow := spriteIndexAt_inside hok hd hu world viewPos i (Nat.le_of_succ_le hi)
    have hdesc := descriptorReads_inside hok hu hi
    have hsprite := hd.sprites i hi
    rw [← hu.spriteWords.1] at hsprite
    unfold spriteIndexAt
    dsimp only
    generalize Sprite.place M (spriteAt pool (pp.spriteWords + UInt32.ofNat i * 12))
      (if (spriteAt pool (pp.spriteWords + UInt32.ofNat i * 12)).flags &&& 1 ≠ 0 then viewPos else world) = here
    split
    · refine ⟨hbelow.1, fun r hr => ?_⟩
      rcases mem_append.1 hr with hr | hr
      · exact hdesc r hr
      · exact hbelow.2 r hr
    rename_i hshown
    rw [Bool.or_eq_true, not_or, Bool.not_eq_true, Bool.not_eq_true, Bool.not_eq_false'] at hshown
    have hpixel := pixel_inside M (p := p) hsprite hshown.1 hshown.2
    have hreads := inside_concat hdesc hpixel
    split
    · refine ⟨hbelow.1, fun r hr => ?_⟩
      rcases mem_append.1 hr with hr | hr
      · exact hreads r hr
      · exact hbelow.2 r hr
    split
    · refine ⟨?_, fun r hr => ?_⟩
      · rw [toNat_umin]
        exact Nat.min_le_right _ _
      · rcases mem_append.1 hr with hr | hr
        · exact hreads r hr
        · rw [mem_singleton.1 hr]
          exact descriptor_inside hok hu hi (toNat_add_le _ 11)
    · exact ⟨Nat.zero_le _, hreads⟩

/-- **One fragment.** -/
theorem pane_fmain_inside (hok : PaneOk poolSize p) (hd : Drawable M poolSize pool p) (hu : Uniform pp p)
    (clip : List (UInt32 × UInt32 × UInt32 × UInt32)) (uv : F × F) :
    ∀ r ∈ pane_fmain M pp clip pool uv, r.Inside poolSize p := by
  intro r hr
  unfold pane_fmain at hr
  dsimp only at hr
  generalize pane_locate M pp clip uv = viewPos at hr
  generalize M.add viewPos.1 (M.ofInt pp.scroll.1) = x at hr
  generalize M.add viewPos.2 (M.ofInt pp.scroll.2) = y at hr
  have hin : (M.le M.zero x && M.le M.zero y && M.lt x (M.ofUInt pp.worldWidth) && M.lt y (M.ofUInt pp.worldHeight)) = true →
      (M.toUInt (if M.lt y M.zero then M.zero else y)).toNat < p.worldHeight ∧ (M.toUInt x).toNat < p.worldWidth := by
    intro h
    simp only [Bool.and_eq_true] at h
    obtain ⟨⟨⟨hx, hy⟩, hw⟩, hh⟩ := h
    have hworld := hok.admitted.world
    rw [M.not_lt_of_le hy, if_neg (by decide), ← hu.worldHeight, ← hu.worldWidth]
    rw [← hu.worldHeight, ← hu.worldWidth] at hworld
    exact ⟨toUInt_within M hy hh (Nat.ne_of_gt hworld.2), toUInt_within M hx hw (Nat.ne_of_gt hworld.1)⟩
  obtain ⟨hpal, hsprites⟩ := spriteIndexAt_inside M hok hd hu (x, y) viewPos _ (Nat.le_of_eq hu.spriteCount)
  rcases mem_append.1 hr with hr | hr
  · rcases mem_append.1 hr with hr | hr
    · split at hr
      · exact absurd hr not_mem_nil
      · rename_i hworld
        rw [Bool.not_eq_true, Bool.not_eq_false'] at hworld
        exact world_inside M hok hd hu (hin hworld).1 (hin hworld).2 r hr
    rcases mem_append.1 hr with hr | hr
    · exact hsprites r hr
    · split at hr
      · exact spriteColour_inside hok.admitted hu hpal r hr
      · exact absurd hr not_mem_nil
  · split at hr
    · rename_i hfront
      exact front_inside M hok hd hu hfront.1 (hin hfront.2).1 (hin hfront.2).2 r hr
    · exact absurd hr not_mem_nil

end

end

namespace PRDSDevice

variable {host : Host}

/-! ## Every reachable state -/

def PanesOk (s : PRDSDevice host) : Prop :=
  ∀ (id : Nat) (h : id < Pane.maxPanes), s.paneTable[id].live = true → PaneOk host.poolSize s.paneTable[id]

theorem Outcome.panesOk {s s' : PRDSDevice host} {req : Bytes} {m : Moment} {st : UInt32} (h : Outcome s req m s' st)
    (hs : s.PanesOk) : s'.PanesOk := by
  cases h with
  | same _ _ => exact hs
  | masked _ _ => exact hs
  | blanked _ _ => exact hs
  | committed _ _ _ _ _ _ _ _ => exact hs
  | pane _ i hi p hp _ _ _ =>
    intro id hid
    change (s.paneTable.set i p hi)[id].live = true → PaneOk host.poolSize (s.paneTable.set i p hi)[id]
    rw [Vector.getElem_set]
    split
    · exact fun hlive => hp hlive (hs i hi)
    · exact hs id hid

theorem step_panesOk {s s' : PRDSDevice host} (hsound : s.Sound) (hs : s.PanesOk) (e : Event) (h : s.step e = some s') :
    s'.PanesOk := by
  have hclear {t : PRDSDevice host} (ht : t.PanesOk) (h : t.clearPresentation = some s') : s'.PanesOk := by
    obtain ⟨-, rfl⟩ := bump_eq_some.1 h
    exact ht
  cases e with
  | didCreateDevice _ =>
    cases h
    exact hs
  | didMap =>
    cases h
    exact hs
  | vmDidStop => exact hclear (t := { s with poolMapped := false, mode := none }) hs h
  | willReset => exact hclear (t := { s with mode := none, eventMask := eventMaskRedraw }) hs h
  | windowResized width height =>
    change (if width > 0 ∧ height > 0 ∧ (width ≠ s.prefWidth ∨ height ≠ s.prefHeight) then _ else some s) = some s' at h
    split at h
    · obtain ⟨d, -, h⟩ := Option.bind_eq_some_iff.1 h
      cases h
      exact hs
    · cases h
      exact hs
  | control e m =>
    obtain ⟨⟨t, data⟩, ht, rfl⟩ := Option.map_eq_some_iff.1 h
    unfold handle at ht
    split at ht
    · cases ht
      exact hs
    · obtain ⟨⟨u, st, payload⟩, hu, ht⟩ := Option.bind_eq_some_iff.1 ht
      cases ht
      exact (command_outcome hsound.counted hu).panesOk hs
  | stats =>
    cases h
    exact hs
  | draws _ =>
    cases h
    exact hs

theorem make_panesOk {pool : Nat → UInt8} {memory : Bool} {width height : Int} {s : PRDSDevice host}
    (h : make host pool memory width height = some s) : s.PanesOk := by
  obtain ⟨d, -, h⟩ := Option.bind_eq_some_iff.1 h
  cases h
  intro id hid hlive
  change (Vector.replicate Pane.maxPanes ({} : PaneState))[id].live = true at hlive
  rw [Vector.getElem_replicate] at hlive
  exact nomatch hlive

/-- **The shader reads inside the pool, and of a plane inside its buffer**: for every live pane that can be drawn, at every
fragment, in every state a run comes to. -/
theorem reads_inside (F : Type) (M : Metal F) (host : Host) (pool : Nat → UInt8) (memory : Bool) (width height : Int)
    (es : List Event) (s0 s : PRDSDevice host) (hmake : make host pool memory width height = some s0)
    (hrun : Runs.run step s0 es = some s) (id : Nat) (hid : id < Pane.maxPanes) (hlive : s.paneTable[id].live = true)
    (hd : Drawable M host.poolSize s.pool s.paneTable[id]) (fit : Option (Fit F)) (pp : PaneParams F)
    (hpp : paneParams M s.paneTable[id] fit = some pp) (uv : F × F) :
    ∀ r ∈ pane_fmain M pp (clipRects s.paneTable[id] fit.isNone) s.pool uv, r.Inside host.poolSize s.paneTable[id] := by
  obtain ⟨-, hs⟩ := Runs.run_inv (I := fun t => t.Sound ∧ t.PanesOk) (Q := fun _ _ => True)
    (fun _ e _ ht _ h => ⟨step_sound ht.1 e h, step_panesOk ht.1 ht.2 e h⟩) ⟨make_sound hmake, make_panesOk hmake⟩
    (Runs.along_iff.2 fun _ _ _ _ _ _ => trivial) hrun
  exact pane_fmain_inside M (hs id hid hlive) hd (paneParams_uniform M hpp) _ uv

/-! ## A pane behind the pool -/

def cut (f : Rat) : UInt32 := .ofNat (min ⌊f⌋.toNat 4294967295)

theorem cut_toNat (f : Rat) : (cut f).toNat = min ⌊f⌋.toNat 4294967295 :=
  UInt32.toNat_ofNat_of_lt' (Nat.lt_of_le_of_lt (Nat.min_le_right _ _) (by decide))

theorem cut_lt {f : Rat} {n : UInt32} (hf : f < n.toNat) (hn : n ≠ 0) : cut f < n := by
  have hpos : n.toNat ≠ 0 := fun h => hn (UInt32.toNat_inj.1 h)
  have hfloor : ⌊f⌋ < (n.toNat : Int) := Int.floor_lt.2 (by exact_mod_cast hf)
  rw [UInt32.lt_iff_toNat_lt, cut_toNat]
  omega

theorem cut_le {f g : Rat} (h : f ≤ g) : cut f ≤ cut g := by
  have hfloor := Int.floor_le_floor h
  rw [UInt32.le_iff_toNat_le, cut_toNat, cut_toNat]
  omega

def rational : Metal Rat where
  zero := 0
  half := 1 / 2
  one := 1
  add := (· + ·)
  sub := (· - ·)
  mul := (· * ·)
  div := (· / ·)
  neg := (- ·)
  cos _ := 1
  sin _ := 0
  eq a b := decide (a = b)
  lt a b := decide (a < b)
  le a b := decide (a ≤ b)
  ofUInt u := u.toNat
  ofInt i := i
  toUInt := cut
  bits u := (if u >>> 31 = 0 then 1 else -1) * (8388608 + (u &&& 0x7FFFFF).toNat) * 2 ^ (u >>> 23 &&& 255).toNat / 2 ^ 150
  not_lt_of_le h := decide_eq_false (not_lt.2 (of_decide_eq_true h))
  not_le_of_lt h := decide_eq_false (not_le.2 (of_decide_eq_true h))
  eq_zero := rfl
  toUInt_lt _ hs hn := cut_lt (not_le.1 (of_decide_eq_false hs)) hn
  toUInt_mirror hz _ _ := cut_le (sub_le_self _ (not_lt.1 (of_decide_eq_false hz)))

/-- One line of eight pixels, its planes behind the last byte of the pool, and no stride. -/
def strayPane : List Event :=
  [.control ⟨le32 cmdPaneCreate ++ le32 0 ++ le64 7 ++ le32 0 ++ le32 Pane.formatIndexed8 ++ le32 8 ++ le32 1 ++ le32 0 ++
      le32 1 ++ le64 1048576 ++ le64 0 ++ le64 0 ++ le64 0, 16⟩ ⟨0, none⟩,
    .control ⟨le32 cmdPaneConfig ++ le32 0 ++ le64 8 ++ le32 0 ++ le32 Pane.flagVisible ++ le32 0 ++ le32 0 ++ le32 8 ++
      le32 1 ++ le32 8 ++ le32 1 ++ le32 0 ++ le32 0 ++ le32 0 ++ le32 0, 16⟩ ⟨0, none⟩]

/-- Its first pixel is read behind the pool. -/
theorem strayPane_outside : ¬ ∀ (F : Type) (M : Metal F) host pool memory width height es (s0 s : PRDSDevice host),
    make host pool memory width height = some s0 → Runs.run step s0 es = some s →
    ∀ (id : Nat) (hid : id < Pane.maxPanes), s.paneTable[id].live = true →
    ∀ (fit : Option (Fit F)) (pp : PaneParams F), paneParams M s.paneTable[id] fit = some pp →
    ∀ uv, ∀ r ∈ pane_fmain M pp (clipRects s.paneTable[id] fit.isNone) s.pool uv, r.Inside host.poolSize s.paneTable[id] := by
  intro h
  obtain ⟨s0, s, hmake, hrun, hpane, hpool⟩ : ∃ s0 s : PRDSDevice smallHost,
      make smallHost (fun _ => 0) true 1280 800 = some s0 ∧ Runs.run step s0 strayPane = some s ∧
      s.paneTable[0] = { live := true, worldWidth := 8, worldHeight := 1, offset := 1048576, flags := Pane.flagVisible,
                         destWidth := 8, destHeight := 1, viewWidth := 8, viewHeight := 1 } ∧ s.pool = fun _ => 0 :=
    ⟨_, _, rfl, rfl, rfl, rfl⟩
  have h0 := h Rat rational smallHost _ true 1280 800 _ s0 s hmake hrun 0 (by decide) (by rw [hpane]) none
  rw [hpane, hpool] at h0
  have hr := (h0 _ rfl (0, 0) (.byte .world 1048576) (by decide +kernel)).pool
  exact absurd hr (by decide)

def tidyPane : List Event :=
  [.control ⟨le32 cmdPaneCreate ++ le32 0 ++ le64 7 ++ le32 0 ++ le32 Pane.formatIndexed8 ++ le32 8 ++ le32 1 ++ le32 8 ++
      le32 1 ++ le64 8192 ++ le64 8 ++ le64 0 ++ le64 16384, 16⟩ ⟨0, none⟩,
    .control ⟨le32 cmdPaneConfig ++ le32 0 ++ le64 8 ++ le32 0 ++ le32 Pane.flagVisible ++ le32 0 ++ le32 0 ++ le32 8 ++
      le32 1 ++ le32 8 ++ le32 1 ++ le32 0 ++ le32 0 ++ le32 0 ++ le32 0, 16⟩ ⟨0, none⟩]

theorem reads_inside_tidyPane : ∃ (s0 s : PRDSDevice smallHost) (pp : PaneParams Rat),
    make smallHost (fun _ => 0) true 1280 800 = some s0 ∧ Runs.run step s0 tidyPane = some s ∧
    s.paneTable[0].live = true ∧ Drawable rational smallHost.poolSize s.pool s.paneTable[0] ∧
    paneParams rational s.paneTable[0] none = some pp ∧
    ∀ uv, ∀ r ∈ pane_fmain rational pp (clipRects s.paneTable[0] true) s.pool uv, r.Inside smallHost.poolSize s.paneTable[0] := by
  obtain ⟨s0, s, hmake, hrun, hpane⟩ : ∃ s0 s : PRDSDevice smallHost,
      make smallHost (fun _ => 0) true 1280 800 = some s0 ∧ Runs.run step s0 tidyPane = some s ∧
      s.paneTable[0] = { live := true, worldWidth := 8, worldHeight := 1, stride := 8, offset := 8192, bufferStride := 8,
                         frontOffset := 16384, flags := Pane.flagVisible, destWidth := 8, destHeight := 1, viewWidth := 8,
                         viewHeight := 1 } :=
    ⟨_, _, rfl, rfl, rfl⟩
  have hlive : s.paneTable[0].live = true := by rw [hpane]
  have hd : Drawable rational smallHost.poolSize s.pool s.paneTable[0] := by
    rw [hpane]
    exact ⟨fun _ => by decide, fun h => absurd h (by decide), fun _ => by decide, by decide,
      fun i hi => absurd hi (Nat.not_lt_zero i)⟩
  obtain ⟨pp, hpp⟩ : ∃ pp, paneParams rational s.paneTable[0] none = some pp := by
    rw [hpane]
    exact ⟨_, rfl⟩
  exact ⟨s0, s, pp, hmake, hrun, hlive, hd, hpp,
    reads_inside Rat rational smallHost _ true 1280 800 _ s0 s hmake hrun 0 (by decide) hlive hd none pp hpp⟩

end PRDSDevice

end Prds
end Prose
