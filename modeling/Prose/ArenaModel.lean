import Mathlib.Algebra.GroupWithZero.Nat
import Prose.FirstFit
import Prose.Runs
/-!
# ArenaModel — the game panes of the display driver

`prds_pane_alloc`, `prds_pane_free`, `prds_pane_configure`, `prds_pane_present` and `prds_pane_shader`, one at a time, as `pane_lock`
has it, with what each asks the host.  A team may be gone whenever the driver asks, and the host may refuse any command.
-/
namespace Prose
namespace Arena

/-- `PRDS_MAX_PANES`, `PRDS_SHM_ALIGNMENT`, `PRDS_MAX_CLIP_RECTS`, `PRDS_MAX_SPRITES`, `PRDS_SHADER_MAX`. -/
def maxPanes : Nat := 8
def shmAlignment : UInt64 := 16384
def maxClipRects : UInt32 := 32
def maxSprites : UInt32 := 128
def shaderMax : UInt32 := 16384

/-- `PRDS_PANE_BUFFERS_MAX`, and the formats. -/
def paneBuffersMax : UInt32 := 3
def indexed8 : UInt32 := 1
def b8g8r8x8 : UInt32 := 2

/-- `sizeof(struct prds_sprite)`. -/
def spriteSize : UInt64 := 48

/-- `PRDS_SPRITE_PALETTES`, `PRDS_SHADER_PARAMS`. -/
def spritePalettes : Nat := 64
def shaderParams : Nat := 16

/-- What `init_driver` leaves for panes: the pool is mapped, and of whole mebibytes, and app_server's part of whole pages of its. -/
structure Pool where
  arenaOffset : UInt64
  arenaSize : UInt64
  mapped : arenaOffset.toNat + arenaSize.toNat < 2 ^ 62
  offset_dvd : shmAlignment.toNat ∣ arenaOffset.toNat
  size_dvd : shmAlignment.toNat ∣ arenaSize.toNat

structure Pane where
  used : Bool := false
  team : Int := 0
  offset : UInt64 := 0
  size : UInt64 := 0

structure Alloc where
  size : UInt64
  format : UInt32
  worldWidth : UInt32
  worldHeight : UInt32
  stride : UInt32
  buffers : UInt32
  bufferOffset : UInt64
  bufferStride : UInt64
  paletteOffset : UInt64
  frontOffset : UInt64

structure Rect where
  x : UInt32
  y : UInt32
  width : UInt32
  height : UInt32

structure Config where
  paneId : UInt32
  flags : UInt32
  destX : Int32
  destY : Int32
  destWidth : UInt32
  destHeight : UInt32
  viewWidth : UInt32
  viewHeight : UInt32
  scrollX : Int32
  scrollY : Int32
  effect : UInt32
  clipCount : UInt32
  clip : List Rect

structure Present where
  paneId : UInt32
  bufferIndex : UInt32
  spriteCount : UInt32
  spriteOffset : UInt64

structure Shader where
  paneId : UInt32
  length : UInt32
  offset : UInt64
  flags : UInt32

inductive Command
  | create (paneId : Nat) (format worldWidth worldHeight stride buffers : UInt32)
      (offset bufferStride paletteOffset frontOffset : UInt64)
  | config (request : Config)
  | present (paneId bufferIndex spriteCount : UInt32) (spriteOffset : UInt64)
  | shader (paneId length : UInt32) (offset : UInt64) (flags : UInt32)
  | destroy (paneId : Nat)

/-- What a request comes to; `host` is what the host has said. -/
inductive Status
  | ok
  | badValue
  | busy
  | noMemory
  | permissionDenied
  | deviceNotFound
  | host

/-- A command, who has asked for it (the driver itself for those who are gone), and the allocation it is about, with its owner. -/
structure Sent where
  asked : Option Int
  owner : Int
  base : UInt64
  size : UInt64
  command : Command

structure Refused where
  size : UInt64
  panes : List Pane

structure State where
  panes : List Pane := List.replicate maxPanes {}
  sent : List Sent := []
  refused : List Refused := []

/-! ## The functions -/

/-- `ALIGN_UP(x, PRDS_SHM_ALIGNMENT)`. -/
def alignUp (x : UInt64) : UInt64 := (x + shmAlignment - 1) / shmAlignment * shmAlignment

/-- `prds_pane_reap`, where `get_team_info` fails for some. -/
def reapFrom (gone : Nat → Bool) : Nat → List Pane → List Pane
  | _, [] => []
  | i, p :: ps => (if p.used && gone i then { p with used := false } else p) :: reapFrom gone (i + 1) ps

def reaped (gone : Nat → Bool) : Nat → List Pane → List Sent
  | _, [] => []
  | i, p :: ps =>
    if p.used && gone i then ⟨none, p.team, p.offset, p.size, .destroy i⟩ :: reaped gone (i + 1) ps else reaped gone (i + 1) ps

def State.reap (s : State) (gone : Nat → Bool) : State :=
  { s with panes := reapFrom gone 0 s.panes, sent := reaped gone 0 s.panes ++ s.sent }

def stepOver (size : UInt64) : List Pane → UInt64 → UInt64 × Bool
  | [], at' => (at', false)
  | p :: ps, at' =>
    if !p.used then stepOver size ps at'
    else if at' < p.offset + p.size ∧ at' + size > p.offset then ((stepOver size ps (p.offset + p.size)).1, true)
    else stepOver size ps at'

def walk (size : UInt64) (panes : List Pane) : Nat → UInt64 → UInt64
  | 0, at' => at'
  | n + 1, at' =>
    if (stepOver size panes at').2 then walk size panes n (stepOver size panes at').1 else (stepOver size panes at').1

def Alloc.early (pool : Pool) (a : Alloc) : Option Status :=
  if pool.arenaSize = 0 then some .deviceNotFound
  else if a.size = 0 ∨ a.size > pool.arenaSize then some .badValue
  else if a.buffers < 1 ∨ a.buffers > paneBuffersMax then some .badValue
  else if a.worldWidth = 0 ∨ a.worldHeight = 0 then some .badValue
  else if a.format ≠ indexed8 ∧ a.format ≠ b8g8r8x8 then some .badValue
  else none

/-- The layout the client asked for "has to stay inside its allocation". -/
def Alloc.bad (a : Alloc) (size : UInt64) : Bool :=
  a.bufferOffset ≥ size || a.paletteOffset ≥ size ||
    a.stride < (if a.format = b8g8r8x8 then a.worldWidth * 4 else a.worldWidth) ||
    a.bufferStride < a.stride.toUInt64 * a.worldHeight.toUInt64 ||
    a.bufferOffset + a.bufferStride * a.buffers.toUInt64 > size ||
    (a.frontOffset ≠ 0 && a.frontOffset + a.bufferStride * a.buffers.toUInt64 > size)

def Alloc.create (a : Alloc) (slot : Nat) (at' : UInt64) : Command :=
  .create slot a.format a.worldWidth a.worldHeight a.stride a.buffers (at' + a.bufferOffset) a.bufferStride (at' + a.paletteOffset)
    (if a.frontOffset ≠ 0 then at' + a.frontOffset else 0)

/-- `prds_pane_alloc`, of a thread of that team. -/
def State.alloc (pool : Pool) (s : State) (team : Int) (gone : Nat → Bool) (host : Bool) (a : Alloc) : State × Status :=
  match a.early pool with
  | some status => (s, status)
  | none =>
    let s := s.reap gone
    let size := alignUp a.size
    match s.panes.findIdx? fun p => !p.used with
    | none => (s, .busy)
    | some slot =>
      let at' := walk size s.panes (maxPanes + 1) pool.arenaOffset
      if at' + size > pool.arenaOffset + pool.arenaSize then
        ({ s with refused := ⟨a.size, s.panes⟩ :: s.refused }, .noMemory)
      else if a.bad size then (s, .badValue)
      else
        let s := { s with sent := ⟨some team, team, at', size, a.create slot at'⟩ :: s.sent }
        if host then ({ s with panes := s.panes.set slot ⟨true, team, at', size⟩ }, .ok) else (s, .host)

/-- `prds_pane_check`. -/
def State.check (s : State) (team : Int) (id : UInt32) : Status :=
  match s.panes[id.toNat]? with
  | some p => if !p.used then .badValue else if p.team = team then .ok else .permissionDenied
  | none => .badValue

def State.pane (s : State) (id : UInt32) : Pane := (s.panes[id.toNat]?).getD {}

def State.send (s : State) (team : Int) (id : UInt32) (host : Bool) (c : Command) : State × Status :=
  ({ s with sent := ⟨some team, (s.pane id).team, (s.pane id).offset, (s.pane id).size, c⟩ :: s.sent }, if host then .ok else .host)

/-- `prds_pane_free`. -/
def State.free (s : State) (team : Int) (host : Bool) (id : UInt32) : State × Status :=
  match s.check team id with
  | .ok =>
    let (s, status) := s.send team id host (.destroy id.toNat)
    ({ s with panes := s.panes.set id.toNat { s.pane id with used := false } }, status)
  | status => (s, status)

/-- `prds_pane_configure`. -/
def State.configure (s : State) (team : Int) (host : Bool) (r : Config) : State × Status :=
  match s.check team r.paneId with
  | .ok =>
    if r.clipCount > maxClipRects then (s, .badValue)
    else s.send team r.paneId host (.config { r with clip := r.clip.take r.clipCount.toNat })
  | status => (s, status)

/-- `prds_pane_present`. -/
def State.present (s : State) (team : Int) (host : Bool) (r : Present) : State × Status :=
  match s.check team r.paneId with
  | .ok =>
    let p := s.pane r.paneId
    if r.spriteCount > maxSprites then (s, .badValue)
    else if r.spriteCount > 0 ∧ (r.spriteOffset ≥ p.size ∨ r.spriteOffset + r.spriteCount.toUInt64 * spriteSize > p.size) then
      (s, .badValue)
    else s.send team r.paneId host (.present r.paneId r.bufferIndex r.spriteCount (p.offset + r.spriteOffset))
  | status => (s, status)

/-- `prds_pane_shader`. -/
def State.shader (s : State) (team : Int) (host : Bool) (r : Shader) : State × Status :=
  match s.check team r.paneId with
  | .ok =>
    let p := s.pane r.paneId
    if r.length > shaderMax then (s, .badValue)
    else if r.length > 0 ∧ (r.offset ≥ p.size ∨ r.offset + r.length.toUInt64 > p.size) then (s, .badValue)
    else s.send team r.paneId host (.shader r.paneId r.length (p.offset + r.offset) r.flags)
  | status => (s, status)

/-- The requests, each of a thread of some team, and what the host says to the command, if there is one. -/
inductive Request
  | alloc (gone : Nat → Bool) (a : Alloc)
  | free (id : UInt32)
  | configure (r : Config)
  | present (r : Present)
  | shader (r : Shader)

structure Event where
  team : Int
  host : Bool := true
  request : Request

def State.handle (pool : Pool) (s : State) (e : Event) : State × Status :=
  match e.request with
  | .alloc gone a => s.alloc pool e.team gone e.host a
  | .free id => s.free e.team e.host id
  | .configure r => s.configure e.team e.host r
  | .present r => s.present e.team e.host r
  | .shader r => s.shader e.team e.host r

def State.step (pool : Pool) (s : State) (e : Event) : Option State := some (s.handle pool e).1

/-! ## What is promised -/

def Pane.range (p : Pane) : Nat × Nat := (p.offset.toNat, p.size.toNat)

/-- The palette block: the global palette, the rows of the scanline palette, the sprites' and the shader parameters. -/
def paletteBytes (worldHeight : UInt32) : Nat := (256 + worldHeight.toNat * 16 + spritePalettes * 16 + shaderParams) * 4

def rowBytes (format width : UInt32) : Nat := if format = b8g8r8x8 then width.toNat * 4 else width.toNat

/-- So many planes of so many rows, one behind the other: the place they have, and the last pixel of the last one. -/
def planeBytes (buffers : UInt32) (bufferStride : UInt64) (height stride : UInt32) (row : Nat) : Nat :=
  max (bufferStride.toNat * buffers.toNat) ((buffers.toNat - 1) * bufferStride.toNat + (height.toNat - 1) * stride.toNat + row)

/-- **What a command describes to the host**, in exact arithmetic. -/
def Command.ranges : Command → List (Nat × Nat)
  | .create _ format worldWidth worldHeight stride buffers offset bufferStride paletteOffset frontOffset =>
    (offset.toNat, planeBytes buffers bufferStride worldHeight stride (rowBytes format worldWidth)) ::
      (paletteOffset.toNat, paletteBytes worldHeight) ::
        if frontOffset = 0 then []
        else [(frontOffset.toNat, planeBytes buffers bufferStride worldHeight stride worldWidth.toNat)]
  | .present _ _ spriteCount spriteOffset =>
    if spriteCount = 0 then [] else [(spriteOffset.toNat, spriteCount.toNat * spriteSize.toNat)]
  | .shader _ length offset _ => if length = 0 then [] else [(offset.toNat, length.toNat)]
  | .config _ | .destroy _ => []

def Inside (base size : Nat) (r : Nat × Nat) : Prop := base ≤ r.1 ∧ r.1 + r.2 ≤ base + size

instance (base size : Nat) (r : Nat × Nat) : Decidable (Inside base size r) := inferInstanceAs (Decidable (_ ∧ _))

/-- **The arena is shared out**: no two panes overlap, none leaves it, room is refused only where there is none, and a command
describes what is its pane's, for its owner. -/
structure Kept (pool : Pool) (s : State) : Prop where
  disjoint : ∀ (i j : Nat) (p q : Pane), i ≠ j → s.panes[i]? = some p → s.panes[j]? = some q → p.used = true → q.used = true →
    ¬ FirstFit.Overlaps p.range.1 p.range.2 q.range
  inside : ∀ p ∈ s.panes, p.used = true → Inside pool.arenaOffset.toNat pool.arenaSize.toNat p.range
  refused : ∀ r ∈ s.refused, ∀ g, Inside pool.arenaOffset.toNat pool.arenaSize.toNat (g, r.size.toNat) →
    ∃ p ∈ r.panes, p.used = true ∧ FirstFit.Overlaps g r.size.toNat p.range
  ranges : ∀ x ∈ s.sent, ∀ r ∈ x.command.ranges, Inside x.base.toNat x.size.toNat r
  owner : ∀ x ∈ s.sent, ∀ team, x.asked = some team → team = x.owner

/-- What an allocation that passes the checks asks for does not wrap, and its palette block is inside. -/
def Alloc.Fine (a : Alloc) : Prop :=
  a.bad (alignUp a.size) = false →
    (a.format = b8g8r8x8 → a.worldWidth.toNat * 4 < 2 ^ 32) ∧
    a.bufferOffset.toNat + a.bufferStride.toNat * a.buffers.toNat < 2 ^ 64 ∧
    (a.frontOffset ≠ 0 → a.frontOffset.toNat + a.bufferStride.toNat * a.buffers.toNat < 2 ^ 64) ∧
    a.paletteOffset.toNat + paletteBytes a.worldHeight ≤ (alignUp a.size).toNat

instance (a : Alloc) : Decidable a.Fine := inferInstanceAs (Decidable (_ → _))

def Fine (_ : State) (e : Event) : Prop :=
  match e.request with
  | .alloc _ a => a.Fine
  | _ => True

instance (s : State) (e : Event) : Decidable (Fine s e) := by
  unfold Fine
  split <;> infer_instance

end Arena
end Prose
