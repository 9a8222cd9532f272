import Prose.Runs
import Prose.Trapping
import Mathlib.Data.Fin.Tuple.Basic
/-!
# PrdsModel — the shared-surface display device

`PRDSDevice` of `prds.swift` with the panes of `gamepane.swift`: what the guest puts on the control queue, the mode and the
display buffer it asks for, and the table of panes.  Everything here runs on the one device queue.

A number read from a request is not negative and is written as such; a conversion, a product or a sum that could be none of
Swift's `Int` is written with the operators that trap.  Sums of a few 32-bit numbers always are, and stand plain.
-/
namespace Prose
namespace Prds

open Trapping

abbrev Bytes := List UInt8

def leU32 (d : Bytes) (o : Nat) : UInt32 :=
  if o + 4 ≤ d.length then
    (d.getD o 0).toUInt32 ||| (d.getD (o + 1) 0).toUInt32 <<< 8 ||| (d.getD (o + 2) 0).toUInt32 <<< 16 |||
      (d.getD (o + 3) 0).toUInt32 <<< 24
  else 0

def leU64 (d : Bytes) (o : Nat) : UInt64 := (leU32 d o).toUInt64 ||| (leU32 d (o + 4)).toUInt64 <<< 32

def leI32 (d : Bytes) (o : Nat) : Int32 := (leU32 d o).toInt32

def le32 (v : UInt32) : Bytes := [v.toUInt8, (v >>> 8).toUInt8, (v >>> 16).toUInt8, (v >>> 24).toUInt8]

def le64 (v : UInt64) : Bytes :=
  [v.toUInt8, (v >>> 8).toUInt8, (v >>> 16).toUInt8, (v >>> 24).toUInt8, (v >>> 32).toUInt8, (v >>> 40).toUInt8,
    (v >>> 48).toUInt8, (v >>> 56).toUInt8]

def u32 (d : Bytes) (o : Nat) : Nat := (leU32 d o).toNat

/-- A 64-bit field as a number, not yet an `Int`. -/
def u64 (d : Bytes) (o : Nat) : Nat := (leU64 d o).toNat

def magic : UInt32 := 0x53445250
def version : UInt8 := 1
def formatB8G8R8X8 : UInt32 := 1
def shmAlign : Nat := 16384
def configSize : Nat := 64
def maxCommitRects : Nat := 64

def cmdSetMode : UInt32 := 0x0100
def cmdCommit : UInt32 := 0x0101
def cmdEnableEvents : UInt32 := 0x0102
def cmdGetInfo : UInt32 := 0x0103
def cmdPaneCreate : UInt32 := 0x0200
def cmdPaneConfig : UInt32 := 0x0201
def cmdPanePresent : UInt32 := 0x0202
def cmdPaneDestroy : UInt32 := 0x0203
def cmdPaneShader : UInt32 := 0x0204
def respOK : UInt32 := 0x1000
def errInvalid : UInt32 := 0x1100
def errUnsupported : UInt32 := 0x1101
def errState : UInt32 := 0x1102
def errBounds : UInt32 := 0x1103
def eventMaskVsync : UInt32 := 1
def eventMaskModeHint : UInt32 := 2
def eventMaskRedraw : UInt32 := 4

def maxWidth : Nat := 3840
def maxHeight : Nat := 2160
def strideAlign : Nat := 64
def refreshMHz : UInt32 := 60000

namespace Pane

def maxPanes : Nat := 8
def maxClipRects : Nat := 32
def maxSprites : Nat := 128
def spritePalettes : Nat := 64
def shaderParams : Nat := 16
def maxBuffers : Nat := 3
def maxShaderBytes : Nat := 16384
def slotFilter : UInt32 := 1
def formatIndexed8 : UInt32 := 1
def formatB8G8R8X8 : UInt32 := 2
def flagVisible : UInt32 := 1
def flagScanline : UInt32 := 2
def spriteStride : Nat := 48

end Pane

structure ClipRect where
  x : Nat
  y : Nat
  w : Nat
  h : Nat

/-- What the device knows about one pane; a shader is the source it was compiled from. -/
structure PaneState where
  live : Bool := false
  format : UInt32 := Pane.formatIndexed8
  worldWidth : Nat := 0
  worldHeight : Nat := 0
  stride : Nat := 0
  buffers : Nat := 1
  offset : Nat := 0
  bufferStride : Nat := 0
  paletteOffset : Nat := 0
  frontOffset : Nat := 0
  flags : UInt32 := 0
  destX : Int := 0
  destY : Int := 0
  destWidth : Nat := 0
  destHeight : Nat := 0
  viewWidth : Nat := 0
  viewHeight : Nat := 0
  scrollX : Int := 0
  scrollY : Int := 0
  effect : UInt32 := 0
  clip : List ClipRect := []
  bufferIndex : Nat := 0
  spriteOffset : Nat := 0
  spriteCount : Nat := 0
  background : Option Bytes := none
  filter : Option Bytes := none

/-- The machine the device runs on: how large the pool it mapped is and how large its pages are, and whether commits are
counted by rectangle. -/
structure Host where
  poolSize : Nat
  page : Nat
  commitStats : Bool
  mapped : poolSize ≤ top
  pages : 0 < page

structure PRDSMode (poolSize : Nat) where
  width : Nat
  height : Nat
  stride : Nat
  offset : Nat
  fits : width ≤ maxWidth ∧ height ≤ maxHeight
  lines : width * 4 ≤ stride ∧ stride < 4294967296
  inside : offset + stride * height ≤ poolSize

structure FrameSurface where
  width : Nat
  height : Nat
  length : Nat
  base : Nat → UInt8
  mapped : maxWidth * 4 * maxHeight ≤ length

def FrameSurface.stride (_ : FrameSurface) : Nat := maxWidth * 4

def FrameSurface.make (page : Nat) (h : 0 < page) : FrameSurface where
  width := 0
  height := 0
  length := (maxWidth * 4 * maxHeight + page - 1) / page * page
  base := fun _ => 0
  mapped := by
    have := Nat.div_add_mod (maxWidth * 4 * maxHeight + page - 1) page
    have := Nat.mod_lt (maxWidth * 4 * maxHeight + page - 1) h
    rw [Nat.mul_comm _ page]
    omega

structure Rect where
  x0 : Nat
  y0 : Nat
  x1 : Nat
  y1 : Nat
  deriving DecidableEq

structure PRDSDevice (host : Host) where
  pool : Nat → UInt8
  surface : Option FrameSurface
  region : Bool := false
  poolMapped : Bool := false
  mode : Option (PRDSMode host.poolSize) := none
  presented : Bool := false
  eventMask : UInt32 := eventMaskRedraw
  prefWidth : Int
  prefHeight : Int
  paneTable : Vector PaneState Pane.maxPanes := .replicate _ {}
  seq : Nat := 0
  commits : Nat := 0
  commitRects : Nat := 0
  commitBytes : Nat := 0
  copyNanos : Nat := 0
  copyMaxNanos : Nat := 0
  rectHistogram : Rect → Nat := fun _ => 0

/-- A request as the queue gives it: the bytes to read, and how many may be written. -/
structure Element where
  readBytes : Bytes
  writeBuffersByteCount : Nat

/-- What the machine says while a request is handled: how long the copying took, and what Metal makes of the shader in
the request (`none`: there is no device), with the text of its complaint. -/
structure Moment where
  elapsed : UInt64
  compiled : Option (Except Bytes Unit)

namespace PRDSDevice

variable {host : Host}

/-- `seq.withLock { $0 += 1 }`. -/
def bump (s : PRDSDevice host) : Option (PRDSDevice host) := do
  let seq ← plus s.seq 1
  some { s with seq }

def clearPresentation (s : PRDSDevice host) : Option (PRDSDevice host) :=
  bump { s with
    presented := false
    surface := s.surface.map fun f =>
      { f with width := 0, height := 0, base := fun a => if a < f.length then 0 else f.base a } }

def fit32 (x : Int) : Option UInt32 := when (0 ≤ x ∧ x < 4294967296) (UInt32.ofNat x.toNat)

def configData (s : PRDSDevice host) : Option Bytes := do
  let width ← fit32 s.prefWidth
  let height ← fit32 s.prefHeight
  let d := le32 magic ++ [version, 0, 1, 0] ++ le32 (.ofNat maxWidth) ++ le32 (.ofNat maxHeight) ++ le32 width ++
    le32 height ++ le32 refreshMHz ++ le32 (.ofNat strideAlign) ++ le32 1 ++ le32 1 ++ [0, 0, 0, 0] ++
    le64 (.ofNat host.poolSize)
  some (d ++ List.replicate (configSize - d.length) 0)

def setMode (s : PRDSDevice host) (req : Bytes) : Option (PRDSDevice host × UInt32) :=
  if req.length < 48 then some (s, errInvalid)
  else do
    let surfaceID := leU32 req 16
    let width := u32 req 20
    let height := u32 req 24
    let stride := u32 req 28
    let format := leU32 req 32
    let offset ← word (u64 req 40)
    if !s.poolMapped then some (s, errState)
    else if width = 0 ∧ height = 0 then do
      let s ← { s with mode := none }.clearPresentation
      some (s, respOK)
    else if hline : surfaceID = 0 ∧ format = formatB8G8R8X8 ∧ 1 ≤ width ∧ 1 ≤ height ∧ width * 4 ≤ stride ∧
        stride % strideAlign = 0 then
      if hfits : width ≤ maxWidth ∧ height ≤ maxHeight ∧ offset % shmAlign = 0 then do
        let plane ← times stride height
        let _ ← plus offset plane
        if hin : offset + stride * height ≤ host.poolSize then do
          let mode := PRDSMode.mk width height stride offset ⟨hfits.1, hfits.2.1⟩
            ⟨hline.2.2.2.2.1, (leU32 req 28).toNat_lt⟩ hin
          let s ← { s with mode := some mode }.clearPresentation
          some (s, respOK)
        else some (s, errBounds)
      else some (s, errBounds)
    else some (s, errInvalid)

/-! ## Commits -/

/-- The rectangle at `o`, cut to the mode. -/
def rectAt (width height : Nat) (req : Bytes) (o : Nat) : Option Rect :=
  let x0 := max 0 (u32 req o)
  let y0 := max 0 (u32 req (o + 4))
  let x1 := min width (x0 + u32 req (o + 8))
  let y1 := min height (y0 + u32 req (o + 12))
  if x1 > x0 ∧ y1 > y0 then some ⟨x0, y0, x1, y1⟩ else none

def rectsOf (width height : Nat) (req : Bytes) : List Rect :=
  if u32 req 20 = 0 then [⟨0, 0, width, height⟩]
  else (List.range (u32 req 20)).filterMap fun i => rectAt width height req (24 + i * 16)

/-- One `memcpy`, from the pool to the display buffer. -/
structure Copy where
  dst : Nat
  src : Nat
  bytes : Nat

def memcpy (pool base : Nat → UInt8) (c : Copy) : Nat → UInt8 := fun a =>
  if c.dst ≤ a ∧ a < c.dst + c.bytes then pool (c.src + (a - c.dst)) else base a

/-- The line `y` of a rectangle. -/
def copyLine (f : FrameSurface) (mode : PRDSMode host.poolSize) (r : Rect) (y : Nat) : Option Copy := do
  let bytes ← times (r.x1 - r.x0) 4
  let down ← times y f.stride
  let across ← times r.x0 4
  let line ← times y mode.stride
  some { dst := down + across, src := mode.offset + line + across, bytes }

def copyLines (f : FrameSurface) (mode : PRDSMode host.poolSize) (r : Rect) : Option (List Copy) :=
  (List.range' r.y0 (r.y1 - r.y0)).mapM (copyLine f mode r)

def countRect (s : PRDSDevice host) (r : Rect) : Option (PRDSDevice host) := do
  let bytes ← times (r.x1 - r.x0) 4
  let commitRects ← plus s.commitRects 1
  let area ← times bytes (r.y1 - r.y0)
  let commitBytes ← plus s.commitBytes area
  some { s with commitRects, commitBytes }

/-- `rectHistogram[..., default: 0] += 1`. -/
def countShape (s : PRDSDevice host) (r : Rect) : Option (PRDSDevice host) := do
  let n ← plus (s.rectHistogram r) 1
  some { s with rectHistogram := Function.update s.rectHistogram r n }

def present (s : PRDSDevice host) (f : FrameSurface) (mode : PRDSMode host.poolSize) (copies : List Copy) :
    PRDSDevice host :=
  { s with
    presented := true
    surface := some { f with
      base := copies.foldl (memcpy s.pool) f.base
      width := if s.presented then f.width else mode.width
      height := if s.presented then f.height else mode.height } }

def commit (s : PRDSDevice host) (req : Bytes) (m : Moment) : Option (PRDSDevice host × UInt32) :=
  match s.mode, s.surface with
  | some mode, some f =>
    if req.length < 24 then some (s, errInvalid)
    else
      let count := u32 req 20
      if ¬ (count ≤ maxCommitRects ∧ 24 + count * 16 ≤ req.length) then some (s, errInvalid)
      else do
        let rects := rectsOf mode.width mode.height req
        let s ← (if host.commitStats then rects.foldlM countShape s else some s)
        let copies ← rects.mapM (copyLines f mode)
        let s ← rects.foldlM countRect (s.present f mode copies.flatten)
        let copyNanos ← when (s.copyNanos + m.elapsed.toNat < 18446744073709551616) (s.copyNanos + m.elapsed.toNat)
        let commits ← plus s.commits 1
        let s ← { s with copyNanos, copyMaxNanos := max s.copyMaxNanos m.elapsed.toNat, commits }.bump
        some (s, respOK)
  | _, _ => some (s, errState)

/-! ## Panes -/

def paneOf (req : Bytes) : Option PaneState := do
  let offset ← word (u64 req 40)
  let bufferStride ← word (u64 req 48)
  let paletteOffset ← word (u64 req 56)
  let frontOffset ← word (u64 req 64)
  some {
    format := leU32 req 20
    worldWidth := u32 req 24
    worldHeight := u32 req 28
    stride := u32 req 32
    buffers := max 1 (min Pane.maxBuffers (u32 req 36))
    offset, bufferStride, paletteOffset, frontOffset }

/-- The words behind a pane's palette: its rows', the sprites', and the shader's parameters. -/
def paletteWords (worldHeight : Nat) : Nat := 256 + worldHeight * 16 + Pane.spritePalettes * 16 + Pane.shaderParams

def paneFits (poolSize : Nat) (pane : PaneState) : Option Bool :=
  if 0 < pane.worldWidth ∧ 0 < pane.worldHeight ∧
      (pane.format = Pane.formatIndexed8 ∨ pane.format = Pane.formatB8G8R8X8) ∧ pane.paletteOffset % 4 = 0 ∧
      0 ≤ pane.offset then do
    let plane ← times pane.stride pane.worldHeight
    if plane ≤ pane.bufferStride then do
      let planes ← times pane.bufferStride pane.buffers
      let last ← plus pane.offset planes
      if last ≤ poolSize then do
        let last ← plus pane.paletteOffset (paletteWords pane.worldHeight * 4)
        if last ≤ poolSize ∧ 0 ≤ pane.frontOffset then
          if pane.frontOffset = 0 then some true
          else do
            let last ← plus pane.frontOffset planes
            some (decide (last ≤ poolSize))
        else some false
      else some false
    else some false
  else some false

def paneCreate (s : PRDSDevice host) (req : Bytes) : Option (PRDSDevice host × UInt32) :=
  if req.length < 72 then some (s, errInvalid)
  else if h : u32 req 16 < Pane.maxPanes then do
    let pane ← paneOf req
    let fits ← paneFits host.poolSize pane
    if !fits then some (s, errBounds)
    else do
      let s ← { s with paneTable := s.paneTable.set (u32 req 16) { pane with live := true } }.bump
      some (s, respOK)
  else some (s, errInvalid)

/-- The clip rectangle at `o`. -/
def clipAt (req : Bytes) (o : Nat) : Option ClipRect :=
  if u32 req (o + 8) > 0 ∧ u32 req (o + 12) > 0 then
    some ⟨u32 req o, u32 req (o + 4), u32 req (o + 8), u32 req (o + 12)⟩
  else none

def paneConfig (s : PRDSDevice host) (req : Bytes) : Option (PRDSDevice host × UInt32) :=
  if req.length < 64 then some (s, errInvalid)
  else if h : u32 req 16 < Pane.maxPanes then
    let count := u32 req 60
    if ¬ (count ≤ Pane.maxClipRects ∧ 64 + count * 16 ≤ req.length) then some (s, errInvalid)
    else
      let clip := (List.range count).filterMap fun i => clipAt req (64 + i * 16)
      let pane := s.paneTable[u32 req 16]
      if !pane.live then some (s, errState)
      else do
        let pane := { pane with
          flags := leU32 req 20
          destX := (leI32 req 24).toInt
          destY := (leI32 req 28).toInt
          destWidth := u32 req 32
          destHeight := u32 req 36
          viewWidth := u32 req 40
          viewHeight := u32 req 44
          scrollX := (leI32 req 48).toInt
          scrollY := (leI32 req 52).toInt
          effect := leU32 req 56
          clip }
        let s ← { s with paneTable := s.paneTable.set (u32 req 16) pane }.bump
        some (s, respOK)
  else some (s, errInvalid)

def panePresent (s : PRDSDevice host) (req : Bytes) : Option (PRDSDevice host × UInt32) :=
  if req.length < 40 then some (s, errInvalid)
  else if h : u32 req 16 < Pane.maxPanes then do
    let index := u32 req 20
    let sprites := u32 req 24
    let spriteOffset ← word (u64 req 32)
    let fits ← (if sprites ≤ Pane.maxSprites ∧ spriteOffset % 4 = 0 then do
        let last ← plus spriteOffset (sprites * Pane.spriteStride)
        some (decide (last ≤ host.poolSize))
      else some false)
    if !fits then some (s, errBounds)
    else
      let pane := s.paneTable[u32 req 16]
      if !pane.live then some (s, errState)
      else if ¬ index < pane.buffers then some (s, errBounds)
      else do
        let pane := { pane with bufferIndex := index, spriteCount := sprites, spriteOffset }
        let s ← { s with paneTable := s.paneTable.set (u32 req 16) pane }.bump
        some (s, respOK)
  else some (s, errInvalid)

def paneDestroy (s : PRDSDevice host) (req : Bytes) : Option (PRDSDevice host × UInt32) :=
  if req.length < 24 then some (s, errInvalid)
  else if h : u32 req 16 < Pane.maxPanes then do
    let s ← { s with paneTable := s.paneTable.set (u32 req 16) {} }.bump
    some (s, respOK)
  else some (s, errInvalid)

def setShader (s : PRDSDevice host) (id : Nat) (h : id < Pane.maxPanes) (filter : Bool) (source : Option Bytes) :
    PRDSDevice host :=
  let pane := s.paneTable[id]
  let pane := if filter then { pane with filter := source } else { pane with background := source }
  { s with paneTable := s.paneTable.set id pane }

/-- The complaint over the source, as far as there is room, with a 0 behind it. -/
def complain (pool : Nat → UInt8) (offset length : Nat) (text : Bytes) : Nat → UInt8 := fun a =>
  let room := min text.length (length - 1)
  if offset ≤ a ∧ a < offset + room then text.getD (a - offset) 0
  else if a = offset + room then 0
  else pool a

def paneShader (s : PRDSDevice host) (req : Bytes) (m : Moment) : Option (PRDSDevice host × UInt32) :=
  if req.length < 40 then some (s, errInvalid)
  else if h : u32 req 16 < Pane.maxPanes then do
    let id := u32 req 16
    let length := u32 req 20
    let offset ← word (u64 req 24)
    let slot := leU32 req 32 &&& 1
    let filter := slot == Pane.slotFilter
    let fits ← (if length ≤ Pane.maxShaderBytes ∧ 0 ≤ offset then do
        let last ← plus offset (max length 1)
        some (decide (last ≤ host.poolSize))
      else some false)
    if !fits then some (s, errBounds)
    else if length = 0 then do
      let s ← (s.setShader id h filter none).bump
      some (s, respOK)
    else
      match m.compiled with
      | none            => some (s, errState)
      | some (.ok ())   => do
        let s ← (s.setShader id h filter (some ((List.range length).map fun i => s.pool (offset + i)))).bump
        some (s, respOK)
      | some (.error text) =>
        some ({ s with pool := complain s.pool offset length text }.setShader id h filter none, errInvalid)
  else some (s, errInvalid)

/-! ## The control queue -/

def answer (e : Element) (status : UInt32) (payload : Bytes) : Option Bytes :=
  let seqNo := leU64 e.readBytes 8
  let response := le32 status ++ le32 0 ++ le64 seqNo ++ payload
  let response := if e.writeBuffersByteCount < response.length then le32 errInvalid ++ le32 0 ++ le64 seqNo else response
  -- a `write` for which there is no room fails, and the element goes back as it is
  if response.length ≤ e.writeBuffersByteCount then some response else none

/-- The command: what it makes of the device, its status and its payload. -/
def command (s : PRDSDevice host) (req : Bytes) (m : Moment) : Option (PRDSDevice host × UInt32 × Bytes) :=
  let type := leU32 req 0
  let bare (o : Option (PRDSDevice host × UInt32)) := o.map fun x => (x.1, x.2, [])
  if type = cmdSetMode then bare (s.setMode req)
  else if type = cmdCommit then bare (s.commit req m)
  else if type = cmdEnableEvents then
    let mask := leU32 req 16
    if mask &&& ~~~(eventMaskVsync ||| eventMaskModeHint ||| eventMaskRedraw) ≠ 0 then some (s, errInvalid, [])
    else some ({ s with eventMask := mask ||| eventMaskRedraw }, respOK, [])
  else if type = cmdGetInfo then s.configData.map fun d => (s, respOK, d)
  else if type = cmdPaneCreate then bare (s.paneCreate req)
  else if type = cmdPaneConfig then bare (s.paneConfig req)
  else if type = cmdPanePresent then bare (s.panePresent req)
  else if type = cmdPaneDestroy then bare (s.paneDestroy req)
  else if type = cmdPaneShader then bare (s.paneShader req m)
  else some (s, errUnsupported, [])

/-- A request: the device behind it, and what was written as its answer. -/
def handle (s : PRDSDevice host) (e : Element) (m : Moment) : Option (PRDSDevice host × Option Bytes) :=
  if e.readBytes.length < 16 then some (s, none)
  else do
    let (s, status, payload) ← s.command e.readBytes m
    some (s, answer e status payload)

/-! ## The device's life -/

/-- The device as it is made, with or without memory for its display buffer, and put into a machine's configuration. -/
def make (host : Host) (pool : Nat → UInt8) (memory : Bool) (width height : Int) : Option (PRDSDevice host) := do
  let surface := if memory then some (FrameSurface.make host.page host.pages) else none
  let s : PRDSDevice host := { pool, surface, prefWidth := width, prefHeight := height }
  let _ ← s.configData
  some s

inductive Event
  /-- with or without a shared memory region -/
  | didCreateDevice (region : Bool)
  /-- the pool was mapped into the guest, once the machine runs -/
  | didMap
  | vmDidStop
  | willReset
  | windowResized (width height : Int)
  | control (e : Element) (m : Moment)
  /-- the line in the log, every ten seconds -/
  | stats
  /-- the guest draws -/
  | draws (pool : Nat → UInt8)

def step (s : PRDSDevice host) : Event → Option (PRDSDevice host)
  | .didCreateDevice region => some { s with region }
  | .didMap => some { s with poolMapped := s.poolMapped || s.region }
  | .vmDidStop => { s with poolMapped := false, mode := none }.clearPresentation
  | .willReset => { s with mode := none, eventMask := eventMaskRedraw }.clearPresentation
  | .windowResized width height =>
    if width > 0 ∧ height > 0 ∧ (width ≠ s.prefWidth ∨ height ≠ s.prefHeight) then do
      let s := { s with prefWidth := min width maxWidth, prefHeight := min height maxHeight }
      let _ ← s.configData
      some s
    else some s
  | .control e m => (s.handle e m).map (·.1)
  | .stats => some { s with rectHistogram := if host.commitStats then fun _ => 0 else s.rectHistogram }
  | .draws pool => some { s with pool }

end PRDSDevice

end Prds
end Prose
