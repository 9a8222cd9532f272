import Prose.Bytes
import Prose.Runs
/-!
# GamePaneModel — what a game pane draws and what is shown of it

`BGamePane` draws straight into the pool, and a `Present` names a buffer and so many sprites; the host's passes read both where they
are.  Addresses are from the allocation on, which both sides add.  What the palette, the shaders and the configuration say, and the
pixels of the sprites, is left out.
-/
namespace Prose
namespace GamePane

/-- `ALIGN_UP`. -/
def alignUp (x a : Nat) : Nat := (x + a - 1) / a * a

/-- `PRDS_PANE_BUFFERS_MAX`. -/
def paneBuffersMax : Nat := 3

/-- `PRDS_MAX_SPRITES`; and `kMaxSprites`, of shapes. -/
def maxSprites : Nat := 128

/-- `sizeof(struct prds_sprite)`, the host's `spriteStride`. -/
def spriteSize : Nat := 48

/-- `PRDS_SPRITE_PALETTES`, `PRDS_SHADER_PARAMS`. -/
def spritePalettes : Nat := 64
def shaderParams : Nat := 16

/-- `PRDS_SHADER_MAX`. -/
def shaderMax : Nat := 16384

/-- `PRDS_SPRITE_F_4BIT`. -/
def fourBit : UInt32 := 8

structure Pane where
  worldWidth : Nat
  worldHeight : Nat
  buffers : Nat
  spriteBytes : Nat
  front : Bool
  poolOffset : Nat
  two_le : 2 ≤ buffers

namespace Pane

variable (p : Pane)

/-! ## The constructor's layout -/

def fBuffers : Nat := if p.buffers < 1 then 1 else if paneBuffersMax < p.buffers then paneBuffersMax else p.buffers

def fStride : Nat := alignUp p.worldWidth 16

def fBufferOffset : Nat := 0

def fBufferStride : Nat := alignUp (p.fStride * p.worldHeight) 64

def fPaletteOffset : Nat := fBufferOffset + p.fBufferStride * p.fBuffers

def paletteSize : Nat := (256 + p.worldHeight * 16 + spritePalettes * 16) * 4 + shaderParams * 4

def fSpriteTableOffset : Nat := alignUp (p.fPaletteOffset + p.paletteSize) 64

def fSpriteArenaOffset : Nat := alignUp (p.fSpriteTableOffset + maxSprites * spriteSize) 64

def fShaderOffset : Nat := alignUp (p.fSpriteArenaOffset + p.spriteBytes) 64

def fFrontOffset : Nat := if p.front then alignUp (p.fShaderOffset + shaderMax * 2) 64 else 0

def plane (front : Bool) (index : Nat) : Nat := (if front then p.fFrontOffset else fBufferOffset) + p.fBufferStride * index

def entry (i : Nat) : Nat := p.fSpriteTableOffset + i * spriteSize

end Pane

/-- `sprite_shape`. -/
structure Shape where
  offset : Nat
  width : Nat
  height : Nat
  stride : Nat
  depth : Nat

/-- `struct prds_sprite`, of which some are signed, and some floats. -/
structure Sprite where
  x : UInt32
  y : UInt32
  width : Nat
  height : Nat
  offset : Nat
  stride : Nat
  flags : UInt32
  scale : UInt32
  rotation : UInt32
  alpha : UInt32
  palette : UInt8

def Sprite.bytes (s : Sprite) : List UInt8 :=
  Bytes.le 4 s.x.toNat ++ (Bytes.le 4 s.y.toNat ++ (Bytes.le 4 s.width ++ (Bytes.le 4 s.height ++ (Bytes.le 8 s.offset ++
    (Bytes.le 4 s.stride ++ (Bytes.le 4 s.flags.toNat ++ (Bytes.le 4 s.scale.toNat ++ (Bytes.le 4 s.rotation.toNat ++
      (Bytes.le 4 s.alpha.toNat ++ Bytes.le 4 s.palette.toNat)))))))))

/-- The end of a call that stores: the sprite counts, the shape is there. -/
inductive Then
  | sprite
  | shape (shape : Shape) (need : Nat)

structure Call where
  stores : List (Nat × UInt8)
  after : Then

/-- What a `Present` names, and the pool as it was. -/
structure Presented where
  index : Nat
  count : Nat
  pool : Nat → UInt8

/-- What a pass reads: so far into the live buffer of either plane, or that byte of a sprite. -/
inductive Read
  | plane (front : Bool) (offset : Nat)
  | sprite (i k : Nat)
  deriving DecidableEq

/-- A pass, with the buffer and the sprites it has been told of, and what it has read. -/
structure Frame where
  index : Nat
  count : Nat
  reads : List (Read × UInt8) := []
  deriving DecidableEq

/-- `front`, `index`, `spriteCount`, `shapes` and `arenaUsed` are the guest's; `hostIndex` and `hostCount` are of the host's
`PaneState`, which is made with zeros.  `lost` are the requests whose ioctl has failed and which the host may yet take.  Of what
happened: `presented` are the successful Presents, and `intact` says that the host shows the last of these, and that nothing it
shows has been drawn over since. -/
structure State where
  front : Bool := false
  index : Nat := 0
  spriteCount : Nat := 0
  shapes : List Shape := []
  arenaUsed : Nat := 0
  call : Option Call := none
  pool : Nat → UInt8 := fun _ => 0
  hostIndex : Nat := 0
  hostCount : Nat := 0
  lost : List (Nat × Nat) := []
  pass : Option Frame := none
  frames : List Frame := []
  presented : List Presented := []
  intact : Bool := false

def start : State := {}

/-- What becomes of a `Present`'s ioctl. -/
inductive Outcome
  | taken
  | refused
  | lost
  deriving DecidableEq

inductive Event
  | setPlane (front : Bool)
  /-- a byte that is written through `World()` or `RowAt()`, by the program or by a drawing call -/
  | write (offset : Nat) (v : UInt8)
  | defineSprite (pixels : List UInt8) (width height depth : Nat)
  | clearSprites
  | drawSprite (shape : Nat) (x y scale rotation alpha : UInt32) (palette : UInt8) (flags : UInt32)
  /-- the call that has the lock stores a byte, or returns -/
  | store
  | present (outcome : Outcome)
  /-- the host takes a request after its ioctl has failed -/
  | late (k : Nat)
  | passBegin
  | passRead (r : Read)
  | passEnd

/-! ## The functions -/

def packRow (row : Nat → UInt8) (width : Nat) : List UInt8 :=
  (List.range ((width + 1) / 2)).map fun j => (row (2 * j) &&& (15 : UInt8)) ||| (if 2 * j + 1 < width then (row (2 * j + 1) &&& (15 : UInt8)) <<< (4 : UInt8) else 0)

/-- What `DefineSprite` puts into the arena. -/
def packed (pixels : List UInt8) (width height depth : Nat) : List UInt8 :=
  if depth = 4 then (List.range height).flatMap fun y => packRow (fun x => pixels.getD (y * width + x) 0) width
  else pixels.take (width * height)

def storesAt (at_ : Nat) (bytes : List UInt8) : List (Nat × UInt8) := (List.range bytes.length).map (at_ + ·) |>.zip bytes

namespace State

variable (p : Pane) (s : State)

/-- Whether writing the byte, where a buffer of this index is drawn into, changes what the host shows. -/
def overBuffer (offset : Nat) (v : UInt8) : Prop := s.index = s.hostIndex ∧ s.pool (p.plane s.front s.index + offset) ≠ v

instance (offset : Nat) (v : UInt8) : Decidable (s.overBuffer p offset v) :=
  inferInstanceAs (Decidable (_ ∧ _))

/-- Whether the next byte of a call changes a sprite the host shows. -/
def overSprite : Prop :=
  match s.call with
  | some ⟨(a, v) :: _, .sprite⟩ => s.spriteCount < s.hostCount ∧ s.pool a ≠ v
  | _ => False

instance : Decidable s.overSprite := by
  unfold overSprite
  split <;> infer_instance

/-- A byte of the pool is written, and `above` says whether over what is shown. -/
def poke (a : Nat) (v : UInt8) (above : Prop) [Decidable above] : State :=
  { s with pool := Function.update s.pool a v, intact := s.intact && decide (¬ above) }

/-- `DefineSprite`. -/
def define (pixels : List UInt8) (width height depth : Nat) : State :=
  if width = 0 ∨ height = 0 ∨ (depth ≠ 8 ∧ depth ≠ 4) ∨ maxSprites ≤ s.shapes.length then s
  else
    let stride := if depth = 4 then (width + 1) / 2 else width
    let need := alignUp (stride * height) 16
    if p.spriteBytes < s.arenaUsed + need then s
    else { s with call := some ⟨storesAt (p.fSpriteArenaOffset + s.arenaUsed) (packed pixels width height depth),
      .shape ⟨p.fSpriteArenaOffset + s.arenaUsed, width, height, stride, depth⟩ need⟩ }

/-- `DrawSprite`. -/
def draw (shape : Nat) (x y scale rotation alpha : UInt32) (palette : UInt8) (flags : UInt32) : State :=
  match s.shapes[shape]? with
  | none => s
  | some table =>
    if maxSprites ≤ s.spriteCount then s
    else { s with call := some ⟨storesAt (p.entry s.spriteCount) (Sprite.bytes ⟨x, y, table.width, table.height,
      p.poolOffset + table.offset, table.stride, flags ||| (if table.depth = 4 then fourBit else 0), scale, rotation, alpha,
      if palette.toNat < spritePalettes then palette else 0⟩), .sprite⟩ }

def finish : Then → State
  | .sprite => { s with call := none, spriteCount := s.spriteCount + 1 }
  | .shape shape need => { s with call := none, shapes := s.shapes ++ [shape], arenaUsed := s.arenaUsed + need }

/-- `panePresent`, for a request that is a successful one's or is not. -/
def panePresent (index count : Nat) : State :=
  if p.fBuffers ≤ index ∨ maxSprites < count then s else { s with hostIndex := index, hostCount := count }

/-- `Present`, of which the last line is done in any case. -/
def present : Outcome → State
  | .taken =>
    { s.panePresent p s.index s.spriteCount with
      presented := s.presented ++ [⟨s.index, s.spriteCount, s.pool⟩], intact := true, index := (s.index + 1) % p.fBuffers }
  | .refused => { s with index := (s.index + 1) % p.fBuffers }
  | .lost => { s with lost := s.lost ++ [(s.index, s.spriteCount)], index := (s.index + 1) % p.fBuffers }

end State

namespace Read

/-- Where a byte is that the host reads; `liveOffset`, `liveFront`. -/
def address (p : Pane) (index : Nat) : Read → Nat
  | .plane front offset => p.plane front (min index (p.fBuffers - 1)) + offset
  | .sprite i k => p.entry i + k

/-- What there is to read: no front plane where there is none, and no more sprites than the host has been told of. -/
def Is (p : Pane) (count : Nat) : Read → Prop
  | .plane front offset => (front = true → p.front = true) ∧ offset < p.fStride * p.worldHeight
  | .sprite i k => i < count ∧ k < spriteSize

instance (p : Pane) (count : Nat) : ∀ r : Read, Decidable (r.Is p count)
  | .plane _ _ | .sprite _ _ => inferInstanceAs (Decidable (_ ∧ _))

end Read

/-- One step: every call of the class that takes its lock has to wait for another's, and the host takes no request during a pass, which
has `presentLock` to its end. -/
def State.step (p : Pane) (s : State) : Event → Option State
  | .setPlane front => if front ∧ ¬ p.front then some s else some { s with front := front }
  | .write offset v =>
    if offset < p.fStride * p.worldHeight then some (s.poke (p.plane s.front s.index + offset) v (s.overBuffer p offset v)) else none
  | .defineSprite pixels width height depth => if s.call = none then some (s.define p pixels width height depth) else none
  | .clearSprites => if s.call = none then some { s with spriteCount := 0 } else none
  | .drawSprite shape x y scale rotation alpha palette flags =>
    if s.call = none then some (s.draw p shape x y scale rotation alpha palette flags) else none
  | .store =>
    match s.call with
    | none => none
    | some ⟨[], after⟩ => some (s.finish after)
    | some ⟨(a, v) :: rest, after⟩ => some { s.poke a v s.overSprite with call := some ⟨rest, after⟩ }
  | .present outcome => if s.call = none ∧ (outcome = .taken → s.pass = none) then some (s.present p outcome) else none
  | .late k =>
    match s.lost[k]? with
    | none => none
    | some (index, count) =>
      if s.pass = none then some { s.panePresent p index count with lost := s.lost.eraseIdx k, intact := false } else none
  | .passBegin => if s.pass = none then some { s with pass := some { index := s.hostIndex, count := s.hostCount } } else none
  | .passRead r =>
    match s.pass with
    | none => none
    | some f => if r.Is p f.count then some { s with pass := some { f with reads := (r, s.pool (r.address p f.index)) :: f.reads } } else none
  | .passEnd =>
    match s.pass with
    | none => none
    | some f => some { s with pass := none, frames := s.frames ++ [f] }

/-! ## The claim about frames -/

def Frame.Shows (p : Pane) (f : Frame) (x : Presented) : Prop :=
  f.index = x.index ∧ f.count = x.count ∧ ∀ r v, (r, v) ∈ f.reads → v = x.pool (r.address p f.index)

/-- **Every frame shows what one successful Present has named, as it was then.** -/
def Kept (p : Pane) (s : State) : Prop := ∀ f ∈ s.frames, ∃ x ∈ s.presented, f.Shows p x

/-- **When frames are stable.**  A pass begins when the host shows a successful Present, and nothing of it has been drawn over since;
and nothing of it is drawn over during a pass. -/
def Fine (p : Pane) (s : State) : Event → Prop
  | .passBegin => s.intact = true
  | .write offset v => s.pass ≠ none → ¬ s.overBuffer p offset v
  | .store => s.pass ≠ none → ¬ s.overSprite
  | _ => True

end GamePane
end Prose
