import Prose.PrdsSteps
/-!
# PaneShader — what the fragment shader of a pane reads

`pane_fmain` of `gamepane.swift` with the uniforms `paneParams` of `main.swift` gives it, as far as what it reads goes: colours
are left out, and a fragment is the list of its reads.  Its numbers are Metal's: 32-bit words that wrap, and floats, which
stand as a parameter.
-/
namespace Prose
namespace Prds

open Trapping

/-- **Metal's floats.** The operations are whatever they are; what is relied on is how comparisons and conversions go: a
conversion to a word cuts, and makes 0 of what is no number; one from a word rounds to a float next to it. -/
structure Metal (F : Type) where
  zero : F
  half : F
  one : F
  add : F → F → F
  sub : F → F → F
  mul : F → F → F
  div : F → F → F
  neg : F → F
  cos : F → F
  sin : F → F
  eq : F → F → Bool
  lt : F → F → Bool
  le : F → F → Bool
  ofUInt : UInt32 → F
  ofInt : Int → F
  toUInt : F → UInt32
  bits : UInt32 → F
  not_lt_of_le : ∀ {a b}, le a b = true → lt b a = false
  not_le_of_lt : ∀ {a b}, lt a b = true → le b a = false
  eq_zero : eq (ofUInt 0) zero = true
  /-- what is neither below 0 nor at `n` or beyond -/
  toUInt_lt : ∀ {f n}, lt f zero = false → le (ofUInt n) f = false → n ≠ 0 → toUInt f < n
  /-- and the same, counted from the other side -/
  toUInt_mirror : ∀ {f n}, lt f zero = false → le (ofUInt n) f = false → n ≠ 0 →
    toUInt (sub (sub (ofUInt n) one) f) ≤ toUInt (sub (ofUInt n) one)

structure PaneParams (F : Type) where
  worldWidth : UInt32
  worldHeight : UInt32
  strideBytes : UInt32
  bufferOffset : UInt32
  paletteWords : UInt32
  format : UInt32
  flags : UInt32
  scroll : Int × Int
  view : UInt32 × UInt32
  dest : (F × F) × F × F
  scale : F × F
  bias : F × F
  guest : F × F
  clipCount : UInt32
  spriteCount : UInt32
  spriteWords : UInt32
  frontOffset : UInt32
  paramWords : UInt32

structure Fit (F : Type) where
  scale : F × F
  bias : F × F
  width : Nat
  height : Nat

def PaneState.liveOffset (p : PaneState) : Nat := p.offset + min p.bufferIndex (max (p.buffers - 1) 0) * p.bufferStride

def PaneState.liveFront (p : PaneState) : Nat :=
  if p.frontOffset = 0 then 0 else p.frontOffset + min p.bufferIndex (max (p.buffers - 1) 0) * p.bufferStride

/-- `UInt32(n)`. -/
def toU32 (n : Nat) : Option UInt32 := when (n < 4294967296) (UInt32.ofNat n)

section

variable {F : Type} (M : Metal F)

/-- The uniforms for one pane; without a fit, for the pane's own picture. -/
def paneParams (pane : PaneState) (fit : Option (Fit F)) : Option (PaneParams F) := do
  let worldWidth ← toU32 pane.worldWidth
  let worldHeight ← toU32 pane.worldHeight
  let strideBytes ← toU32 pane.stride
  let bufferOffset ← toU32 pane.liveOffset
  let words ← toU32 (pane.paletteOffset / 4)
  let viewWidth ← toU32 pane.viewWidth
  let viewHeight ← toU32 pane.viewHeight
  let spriteCount ← toU32 pane.spriteCount
  let spriteWords ← toU32 (pane.spriteOffset / 4)
  let frontOffset ← toU32 pane.liveFront
  let paramWords ← toU32 (pane.paletteOffset / 4 + 256 + pane.worldHeight * 16 + Pane.spritePalettes * 16)
  let clips ← toU32 pane.clip.length
  let real (n : Nat) : F := M.ofInt n
  some {
    worldWidth, worldHeight, strideBytes, bufferOffset, spriteCount, spriteWords, frontOffset, paramWords
    paletteWords := words
    format := pane.format
    flags := pane.flags
    scroll := (pane.scrollX, pane.scrollY)
    view := (viewWidth, viewHeight)
    dest := match fit with
      | some _ => ((M.ofInt pane.destX, M.ofInt pane.destY), real pane.destWidth, real pane.destHeight)
      | none   => ((M.zero, M.zero), real pane.viewWidth, real pane.viewHeight)
    scale := match fit with
      | some fit => fit.scale
      | none     => (M.one, M.one)
    bias := match fit with
      | some fit => fit.bias
      | none     => (M.zero, M.zero)
    guest := match fit with
      | some fit => (real fit.width, real fit.height)
      | none     => (real pane.viewWidth, real pane.viewHeight)
    clipCount := match fit with
      | some _ => clips
      | none   => 1 }

def clipRects (pane : PaneState) (own : Bool) : List (UInt32 × UInt32 × UInt32 × UInt32) :=
  if own then [(0, 0, .ofNat pane.viewWidth, .ofNat pane.viewHeight)]
  else pane.clip.map fun r => (.ofNat r.x, .ofNat r.y, .ofNat r.w, .ofNat r.h)

/-! ## Reads -/

inductive Kind
  | world
  | front
  | palette
  | scanline
  | descriptor
  | pixel
  deriving DecidableEq

inductive Read
  | byte (kind : Kind) (i : UInt32)
  | word (kind : Kind) (i : UInt32)
  deriving DecidableEq

def byteAt (pool : Nat → UInt8) (i : UInt32) : UInt32 := (pool i.toNat).toUInt32

def wordAt (pool : Nat → UInt8) (i : UInt32) : UInt32 :=
  (pool (4 * i.toNat)).toUInt32 ||| (pool (4 * i.toNat + 1)).toUInt32 <<< 8 ||| (pool (4 * i.toNat + 2)).toUInt32 <<< 16 |||
    (pool (4 * i.toNat + 3)).toUInt32 <<< 24

/-- Where a fragment falls in the pane's view, or -1 where it falls outside. -/
def pane_locate (p : PaneParams F) (clip : List (UInt32 × UInt32 × UInt32 × UInt32)) (uv : F × F) : F × F :=
  let nowhere := (M.neg M.one, M.neg M.one)
  let uv := (M.div (M.sub uv.1 p.bias.1) p.scale.1, M.div (M.sub uv.2 p.bias.2) p.scale.2)
  if M.lt uv.1 M.zero || M.lt uv.2 M.zero || M.le M.one uv.1 || M.le M.one uv.2 then nowhere
  else
    let g := (M.mul uv.1 p.guest.1, M.mul uv.2 p.guest.2)
    let inside := (clip.take p.clipCount.toNat).any fun r =>
      M.le (M.ofUInt r.1) g.1 && M.le (M.ofUInt r.2.1) g.2 && M.lt g.1 (M.ofUInt (r.1 + r.2.2.1)) &&
        M.lt g.2 (M.ofUInt (r.2.1 + r.2.2.2))
    if !inside then nowhere
    else
      let at_ (g d w : F) (v : UInt32) : F := M.mul (M.div (M.sub g d) w) (M.ofUInt v)
      let viewPos := (at_ g.1 p.dest.1.1 p.dest.2.1 p.view.1, at_ g.2 p.dest.1.2 p.dest.2.2 p.view.2)
      if M.lt viewPos.1 M.zero || M.lt viewPos.2 M.zero || M.le (M.ofUInt p.view.1) viewPos.1 ||
          M.le (M.ofUInt p.view.2) viewPos.2 then nowhere
      else viewPos

def lookup (p : PaneParams F) (index row : UInt32) : List Read :=
  if index = 0 then []
  else if index < 16 ∧ p.flags &&& Pane.flagScanline ≠ 0 then
    [.word .scanline (p.paletteWords + 256 + min row (p.worldHeight - 1) * 16 + index)]
  else [.word .palette (p.paletteWords + index)]

def spriteColour (p : PaneParams F) (index palette : UInt32) : List Read :=
  if index = 0 then []
  else if palette = 0 then [.word .palette (p.paletteWords + min index 255)]
  else [.word .palette (p.paletteWords + 256 + p.worldHeight * 16 + palette * 16 + (index &&& 15))]

structure Sprite where
  originX : UInt32
  originY : UInt32
  width : UInt32
  height : UInt32
  offset : UInt32
  stride : UInt32
  flags : UInt32
  scale : UInt32
  rotation : UInt32
  alpha : UInt32
  palette : UInt32

def spriteAt (pool : Nat → UInt8) (w : UInt32) : Sprite where
  originX := wordAt pool w
  originY := wordAt pool (w + 1)
  width := wordAt pool (w + 2)
  height := wordAt pool (w + 3)
  offset := wordAt pool (w + 4)
  stride := wordAt pool (w + 6)
  flags := wordAt pool (w + 7)
  scale := wordAt pool (w + 8)
  rotation := wordAt pool (w + 9)
  alpha := wordAt pool (w + 10)
  palette := wordAt pool (w + 11)

def Sprite.skipped (d : Sprite) : Bool :=
  M.eq (M.ofUInt d.width) M.zero || M.eq (M.ofUInt d.height) M.zero || M.le (M.bits d.scale) M.zero ||
    M.le (M.bits d.alpha) M.zero

/-- A point in the sprite's own pixels: the sprite's transform, undone. -/
def Sprite.place (d : Sprite) (here : F × F) : F × F :=
  let size := (M.ofUInt d.width, M.ofUInt d.height)
  let scale := M.bits d.scale
  let rotation := M.bits d.rotation
  let origin := (M.ofInt d.originX.toInt32.toInt, M.ofInt d.originY.toInt32.toInt)
  let centre := (M.add origin.1 (M.mul (M.mul size.1 scale) M.half), M.add origin.2 (M.mul (M.mul size.2 scale) M.half))
  let off := (M.sub here.1 centre.1, M.sub here.2 centre.2)
  let off := if M.eq rotation M.zero then off
    else
      let c := M.cos (M.neg rotation)
      let s := M.sin (M.neg rotation)
      (M.sub (M.mul off.1 c) (M.mul off.2 s), M.add (M.mul off.1 s) (M.mul off.2 c))
  (M.add (M.div off.1 scale) (M.mul size.1 M.half), M.add (M.div off.2 scale) (M.mul size.2 M.half))

def Sprite.covers (d : Sprite) (at_ : F × F) : Bool :=
  !(M.lt at_.1 M.zero || M.lt at_.2 M.zero || M.le (M.ofUInt d.width) at_.1 || M.le (M.ofUInt d.height) at_.2)

def mirror (on : Bool) (size : UInt32) (x : F) : F := if on then M.sub (M.sub (M.ofUInt size) M.one) x else x

def Sprite.address (d : Sprite) (x row : UInt32) : UInt32 :=
  d.offset + row * d.stride + (if d.flags &&& 8 ≠ 0 then x >>> 1 else x)

def Sprite.index (d : Sprite) (pool : Nat → UInt8) (x row : UInt32) : UInt32 :=
  let packed := byteAt pool (d.address x row)
  if d.flags &&& 8 ≠ 0 then (if x &&& 1 ≠ 0 then packed >>> 4 else packed &&& 15) else packed

def descriptorReads (w : UInt32) : List Read :=
  [.word .descriptor w, .word .descriptor (w + 1), .word .descriptor (w + 2), .word .descriptor (w + 3),
    .word .descriptor (w + 4), .word .descriptor (w + 6), .word .descriptor (w + 7), .word .descriptor (w + 8),
    .word .descriptor (w + 9), .word .descriptor (w + 10)]

/-- The topmost of the first so many sprites that shows here: its index, its palette, and what was read. -/
def spriteIndexAt (p : PaneParams F) (pool : Nat → UInt8) (world viewPos : F × F) : Nat → UInt32 × UInt32 × List Read
  | 0     => (0, 0, [])
  | i + 1 =>
    let w := p.spriteWords + UInt32.ofNat i * 12
    let d := spriteAt pool w
    let below := spriteIndexAt p pool world viewPos i
    let here := d.place M (if d.flags &&& 1 ≠ 0 then viewPos else world)
    if d.skipped M || !d.covers M here then (below.1, below.2.1, descriptorReads w ++ below.2.2)
    else
      let x := M.toUInt (mirror M (d.flags &&& 2 ≠ 0) d.width here.1)
      let row := M.toUInt (mirror M (d.flags &&& 4 ≠ 0) d.height here.2)
      let reads := descriptorReads w ++ [.byte .pixel (d.address x row)]
      if d.index pool x row = 0 then (below.1, below.2.1, reads ++ below.2.2)
      else if d.flags &&& 8 ≠ 0 then
        (d.index pool x row, min d.palette 63, reads ++ [.word .descriptor (w + 11)])
      else (d.index pool x row, 0, reads)

/-- **The reads of a fragment.** One that is discarded goes on reading. -/
def pane_fmain (p : PaneParams F) (clip : List (UInt32 × UInt32 × UInt32 × UInt32)) (pool : Nat → UInt8) (uv : F × F) :
    List Read :=
  let viewPos := pane_locate M p clip uv
  let world := (M.add viewPos.1 (M.ofInt p.scroll.1), M.add viewPos.2 (M.ofInt p.scroll.2))
  let row := M.toUInt (if M.lt world.2 M.zero then M.zero else world.2)
  let inWorld := M.le M.zero world.1 && M.le M.zero world.2 && M.lt world.1 (M.ofUInt p.worldWidth) &&
    M.lt world.2 (M.ofUInt p.worldHeight)
  let column := M.toUInt world.1
  let worldReads :=
    if !inWorld then []
    else if p.format = 2 then [.word .world ((p.bufferOffset + row * p.strideBytes) / 4 + column)]
    else
      let i := p.bufferOffset + row * p.strideBytes + column
      .byte .world i :: lookup p (byteAt pool i) row
  let s := spriteIndexAt M p pool world viewPos p.spriteCount.toNat
  let spriteReads := s.2.2 ++ (if s.1 ≠ 0 then spriteColour p s.1 s.2.1 else [])
  let frontReads :=
    if p.frontOffset ≠ 0 ∧ inWorld = true then
      let i := p.frontOffset + row * p.strideBytes + column
      .byte .front i :: (if byteAt pool i ≠ 0 then [.word .palette (p.paletteWords + byteAt pool i)] else [])
    else []
  worldReads ++ spriteReads ++ frontReads

end

end Prds
end Prose
