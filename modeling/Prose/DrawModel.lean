import Mathlib.Order.Basic
/-!
# DrawModel — the data of a ProseDraw document

The types of `PDDocument.h`.  A coordinate is a `float`.  Ids are `int32`s that do not run out.
-/
namespace Prose
namespace Draw

/-- A `char` of a C string. -/
abbrev Byte := { b : UInt8 // b ≠ 0 }

structure RgbColor where
  red : UInt8
  green : UInt8
  blue : UInt8
  alpha : UInt8
deriving DecidableEq

/-- The enumerators, and the bytes that none of them has: a kind read from a message is cast from any byte. -/
inductive PDShapeKind
  | rect | rrect | ellipse | diamond | text | connector | image
  | unnamed (byte : UInt8) (h : 7 ≤ byte)
deriving DecidableEq

inductive PDAlign
  | left | hcenter | right | top | vcenter | bottom | distributeH | distributeV
deriving DecidableEq

structure PDStyle where
  fill : RgbColor := ⟨255, 255, 255, 255⟩
  fillOn : Bool := true
  stroke : RgbColor := ⟨0, 0, 0, 255⟩
  strokeWidth : Float32 := 1
  dashed : Bool := false
  textSize : Float32 := 12
  textColor : RgbColor := ⟨0, 0, 0, 255⟩
deriving DecidableEq

/-- `PDStyle::operator==`. -/
def PDStyle.eq (s o : PDStyle) : Bool :=
  s.fill = o.fill && s.fillOn = o.fillOn && s.stroke = o.stroke && s.strokeWidth == o.strokeWidth &&
    s.dashed = o.dashed && s.textSize == o.textSize && s.textColor = o.textColor

structure BPoint where
  x : Float32
  y : Float32

structure BRect where
  left : Float32 := 0
  top : Float32 := 0
  right : Float32 := -1
  bottom : Float32 := -1
deriving DecidableEq

/-- `BRect::operator==`. -/
def BRect.eq (r s : BRect) : Bool := r.left == s.left && r.top == s.top && r.right == s.right && r.bottom == s.bottom

def BRect.offsetBy (r : BRect) (dx dy : Float32) : BRect := ⟨r.left + dx, r.top + dy, r.right + dx, r.bottom + dy⟩

def BRect.width (r : BRect) : Float32 := r.right - r.left

def BRect.height (r : BRect) : Float32 := r.bottom - r.top

def BRect.contains (r : BRect) (p : BPoint) : Bool := r.left ≤ p.x && p.x ≤ r.right && r.top ≤ p.y && p.y ≤ r.bottom

structure PDShape where
  id : Int := 0
  kind : PDShapeKind := .rect
  rect : BRect := {}
  label : List Byte := []
  style : PDStyle := {}
  fromId : Int := 0
  toId : Int := 0
  arrowEnd : Bool := true
  arrowStart : Bool := false
  orthogonal : Bool := false
  imageId : Int := 0
deriving DecidableEq

/-- A raster of the store, rows of four bytes a pixel: what adds one checks its size. -/
structure PDImage where
  id : Int
  width : Int
  height : Int
  bits : List UInt8
  width_pos : 0 < width
  height_pos : 0 < height
  length_bits : bits.length = (width * height * 4).toNat

structure PDPageSetup where
  width : Float32 := 595
  height : Float32 := 842

/-- The document.  `fCapacity` is the room `fShapes` has before `push_back` moves it; the two stacks have their top in
front. -/
structure PDDocument where
  fShapes : List PDShape := []
  fCapacity : Nat := 0
  fImages : List PDImage := []
  fNextImageId : Int := 1
  fUndo : List (List PDShape × Int) := []
  fRedo : List (List PDShape × Int) := []
  fNextId : Int := 1
  fGrid : Float32 := 8
  fSnap : Bool := true
  fShowGrid : Bool := true
  fPage : PDPageSetup := {}
  fModified : Bool := false

end Draw
end Prose
