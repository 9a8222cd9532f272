import Mathlib.Order.Defs.LinearOrder
import Mathlib.Data.Int.Order.Basic
import Prose.SortedMap
/-!
# WriterModel — the data of a ProseWriter document

The types of `PWDocument.h`.  Lengths and offsets are bytes.  An `int32` is an `Int` or, where the calls only ever hold
a count or an offset into the document, a `Nat`; a document is far below 2^31 bytes.  A `float` is the rational it
denotes: the document copies and compares sizes and distances, it does not round them.
-/
namespace Prose
namespace Writer

/-- A `char` of a C string: every text enters the document through a NUL-terminated string. -/
abbrev Byte := { b : UInt8 // b ≠ 0 }

instance lawful_byte : LawfulBEq Byte := inferInstance
instance lawful_bytes : LawfulBEq (List Byte) := inferInstance

def newline : Byte := ⟨10, by decide⟩
def kCellSep : Byte := ⟨29, by decide⟩

def kObjectChar : List Byte := [⟨239, by decide⟩, ⟨191, by decide⟩, ⟨188, by decide⟩]

/-- `font_family`, an array of 64 chars with its NUL. -/
abbrev FontFamily := { name : List Byte // name.length ≤ 63 }

structure RgbColor where
  red : UInt8
  green : UInt8
  blue : UInt8
  alpha : UInt8
deriving DecidableEq

structure PWCharFormat where
  family : FontFamily
  size : Rat := 12
  color : RgbColor := ⟨0, 0, 0, 255⟩
  bold : Bool := false
  italic : Bool := false
  underline : Bool := false
deriving DecidableEq

/-! The enumerations are `uint8`s: a value read from a file need not be a named one, and keeps its code. -/

inductive PWAlignment
  | left | center | right | justify
  | other (code : { c : UInt8 // 4 ≤ c })
deriving DecidableEq

inductive PWListKind
  | none | bullet | number
  | other (code : { c : UInt8 // 3 ≤ c })
deriving DecidableEq

inductive PWTabKind
  | left | center | right
  | other (code : { c : UInt8 // 3 ≤ c })
deriving DecidableEq

structure PWTab where
  x : Rat := 0
  kind : PWTabKind := .left
deriving DecidableEq

structure PWParaFormat where
  alignment : PWAlignment := .left
  indentLeft : Rat := 0
  indentRight : Rat := 0
  indentFirst : Rat := 0
  lineSpacing : Rat := 1
  spaceBefore : Rat := 0
  spaceAfter : Rat := 0
  listKind : PWListKind := .none
  tabs : List PWTab := []
deriving DecidableEq

structure PWRun where
  start : Int := 0
  length : Int := 0
  format : PWCharFormat
deriving DecidableEq

/-- What the document reads of a `B_RGB32` bitmap. -/
structure Bitmap where
  width : Nat
  height : Nat
  bits : List UInt8
deriving DecidableEq

structure PWImage where
  bitmap : Option Bitmap
  widthPt : Rat := 0
  heightPt : Rat := 0
deriving DecidableEq

abbrev ImageTable := SortedMap Int PWImage

structure Para where
  runs : List PWRun
  text : List Byte := []
  format : PWParaFormat := {}
  images : ImageTable := SortedMap.empty
  id : Nat := 0
  revision : Nat := 0
deriving DecidableEq

inductive StepKind
  | insert | remove | format | paraformat
deriving DecidableEq

structure UndoStep where
  kind : StepKind
  offset : Nat := 0
  length : Nat := 0
  text : List Byte := []
  runs : List PWRun := []
  images : ImageTable := SortedMap.empty
  paraFormat : PWParaFormat := {}
  coalesce : Bool := false

structure PWStyle where
  name : List Byte
  chr : PWCharFormat
  para : PWParaFormat

structure PWDocument where
  fParas : List Para
  fNextParaId : Nat := 1
  fDefault : PWCharFormat
  fUndo : List UndoStep := []
  fRedo : List UndoStep := []
  fStyles : List PWStyle := []
  fModified : Bool := false
  fCoalesce : Bool := true
  fHeader : List Byte := []
  fFooter : List Byte := []
  fInternalEdit : Bool := false

/-- The default format of a system whose plain font has the family `plain`. -/
def makeDefaultFormat (plain : FontFamily) : PWCharFormat := { family := plain }

/-- `PWDocument::PWDocument`: one empty paragraph. -/
def PWDocument.new (plain : FontFamily) : PWDocument :=
  { fParas := [{ runs := [⟨0, 0, makeDefaultFormat plain⟩], id := 1 }]
    fNextParaId := 2
    fDefault := makeDefaultFormat plain }

end Writer
end Prose
