import Mathlib.Data.Rat.Floor
import Prose.Loops
import Prose.WriterCalls
/-!
# LayoutModel — what the page layout reads and measures

The types of `PWLayout.h`, and how `PWLayout.cpp` walks a paragraph's bytes and measures them.  A `float` is any type with a
float's operations, of which nothing is assumed; fonts are whatever answers the two questions the layout asks of them.  A read
through an index that may lie outside its array has no outcome there, and a loop runs so many turns at most.
-/
namespace Prose
namespace Writer

/-- The operations of a `float`. -/
class Points (F : Type) extends Zero F, Add F, Sub F, Mul F, Div F, BEq F, LE F, LT F where
  ofRat : ℚ → F
  floor : F → F

instance : Points ℚ where
  ofRat q := q
  floor q := (⌊q⌋ : ℚ)

/-- What is set on a `BFont`. -/
structure BFont where
  family : FontFamily
  bold : Bool
  italic : Bool
  size : ℚ

structure FontHeight (F : Type) where
  ascent : F
  descent : F
  leading : F

/-- The fonts of the system: `BFont::StringWidth` and `BFont::GetHeight`, and the family of the plain font. -/
structure Fonts (F : Type) where
  stringWidth : BFont → List Byte → F
  getHeight : BFont → FontHeight F
  plain : FontFamily

variable {F : Type} [Points F] [DecidableLE F] [DecidableLT F]

abbrev pt (q : ℚ) : F := Points.ofRat q

/-- `std::max` and `std::min`. -/
def maxF (a b : F) : F := if a < b then b else a
def minF (a b : F) : F := if b < a then b else a

structure PWPageSetup (F : Type) where
  pageWidth : F
  pageHeight : F
  marginLeft : F
  marginRight : F
  marginTop : F
  marginBottom : F

def PWPageSetup.textWidth (s : PWPageSetup F) : F := s.pageWidth - s.marginLeft - s.marginRight
def PWPageSetup.textHeight (s : PWPageSetup F) : F := s.pageHeight - s.marginTop - s.marginBottom

def kPageGap : F := pt 18

structure Line (F : Type) where
  para : Nat
  startPara : Nat := 0
  length : Nat := 0
  startAbs : Nat := 0
  x : F
  y : F
  width : F
  height : F
  baseline : F
  last : Bool := false
  listMark : PWListKind := .none
  listSeq : Nat := 0
  table : Bool := false

structure CellLine (F : Type) where
  startByte : Nat
  length : Nat
  baseline : F
  height : F

structure CellLayout (F : Type) where
  firstByte : Nat
  x : F
  width : F
  lines : List (CellLine F)

structure RowLayout (F : Type) where
  para : Nat
  height : F
  cells : List (CellLayout F)

structure PageSpan where
  firstLine : Nat := 0
  lineCount : Nat := 0
deriving DecidableEq

structure ParaSummary where
  paraId : Nat
  revision : Nat
  firstLine : Nat
  lineCount : Nat

structure PWLayout (F : Type) where
  fSetup : PWPageSetup F
  fLines : List (Line F) := []
  fPages : List PageSpan := []
  fPrevSummaries : SortedMap Nat ParaSummary := SortedMap.empty
  fRows : SortedMap Nat (RowLayout F) := SortedMap.empty
  fLiveParaIds : List Nat := []
  fPrevValid : Bool := false
  fIncremental : Bool := true
  fSetupEpoch : UInt32 := 0
  fPrevEpoch : UInt32 := 0
  fMeasuredParas : Nat := 0

/-! ## Bytes -/

def charStep (c : Byte) : Nat :=
  if c.val &&& 0x80 = 0 then 1
  else if c.val &&& 0xE0 = 0xC0 then 2
  else if c.val &&& 0xF0 = 0xE0 then 3
  else if c.val &&& 0xF8 = 0xF0 then 4
  else 1

/-- `UTF8Next`.  The loop over the continuation bytes ends in its first turn and changes nothing. -/
def utf8Next (text : List Byte) (i len : Nat) : Nat :=
  if len ≤ i then len
  else
    let step := ((text[i]?).map charStep).getD 1
    if len < i + step then i + (len - i) else i + step

def isBreakChar (c : Byte) : Bool := c.val == 32 || c.val == 9

/-- `text[i] == c`, and `IsBreakChar(text[i])`. -/
def isByte (c : UInt8) (text : List Byte) (i : Nat) : Bool := (text[i]?).any (·.val == c)
def breakAt (text : List Byte) (i : Nat) : Bool := (text[i]?).any isBreakChar

/-- `while (at < to && text[at] == ' ') at++`. -/
def skipSpaces (text : List Byte) (stop at' : Nat) : Nat := at' + (((text.take stop).drop at').takeWhile (·.val == 32)).length

/-- `while (lineEnd > lineStart && IsBreakChar(text[lineEnd - 1])) lineEnd--`. -/
def trimEnd (text : List Byte) (lineStart : Nat) : Nat → Nat
  | 0           => 0
  | lineEnd + 1 => if lineStart < lineEnd + 1 ∧ breakAt text lineEnd then trimEnd text lineStart lineEnd else lineEnd + 1

/-! ## Runs and images -/

/-- `ImageSizeAt`, of a paragraph. -/
def Para.imageSizeAt (p : Para) (byteOffset : Nat) : F × F :=
  match p.images.get? byteOffset with
  | some img => (pt img.widthPt, pt img.heightPt)
  | none => (0, 0)

/-- `iw > 0`. -/
def Para.imageAt (F : Type) [Points F] [DecidableLT F] (p : Para) (b : Nat) : Bool := (0 : F) < (p.imageSizeAt b).1

def PWRun.covers (r : PWRun) (b : Nat) : Bool := r.start ≤ b ∧ (b : Int) < r.rEnd

/-- The table `runOf` of `LayoutParagraph`: the last run over a byte, else the first run of all. -/
def runOf (runs : List PWRun) (i : Nat) : Nat := runs.zipIdx.foldl (fun k r => if r.1.covers i then r.2 else k) 0

/-- `runs[runOf[i]]`. -/
def runAt (runs : List PWRun) (i : Nat) : Option PWRun := runs[runOf runs i]?

def firstRunAt (runs : List PWRun) (b : Nat) : Option PWRun := (runs.find? (·.covers b)).or runs.head?

def fontForFormat (f : PWCharFormat) : BFont := ⟨f.family, f.bold, f.italic, f.size⟩
def fontForRun (r : PWRun) : BFont := fontForFormat r.format

variable (fonts : Fonts F)

def formatForSpan (runs : List PWRun) (at' : Nat) : PWCharFormat :=
  match runs.find? (·.covers at') with
  | some r => r.format
  | none => match runs with
    | []     => makeDefaultFormat fonts.plain
    | r :: _ => r.format

/-! ## Widths -/

/-- The bytes `[start, stop)`; none where `stop` lies in front. -/
def slice (text : List Byte) (start : Nat) (stop : Int) : List Byte := (text.drop start).take (stop - start).toNat

/-- How far a tab at `pos` goes. -/
def tabAdvance (tabs : List PWTab) (pos : F) : F :=
  match tabs.find? (fun tab => pos < pt tab.x) with
  | some tab => pt tab.x - pos
  | none =>
    let target := (Points.floor (pos / pt 36) + pt 1) * pt 36
    (if target ≤ pos then pos + pt 36 else target) - pos

/-- `ByteWidth`; `haveRuns` is `runOf != NULL`. -/
def byteWidth (p : Para) (haveRuns : Bool) (at' : Nat) (lineX edge : F) : Option F :=
  if isByte 9 p.text at' then some (tabAdvance p.format.tabs (lineX + pt (1 / 100) - edge))
  else if !haveRuns then some 0
  else if p.imageAt F at' then some (p.imageSizeAt at').1
  else (runAt p.runs at').map (fun r => fonts.stringWidth (fontForRun r) (slice p.text at' (at' + 1)))

/-- One turn of the loop of `MeasureWithRuns`. -/
def measureStep (runs : List PWRun) (text : List Byte) (stop : Nat) : Nat × F → Option (Nat × F)
  | (b, w) => (firstRunAt runs b).map fun r =>
    let segEnd : Int := min r.rEnd stop
    let segEnd := if segEnd ≤ b then b + 1 else segEnd.toNat
    (segEnd, w + fonts.stringWidth (fontForRun r) (slice text b segEnd))

def measureWithRuns (fuel : Nat) (runs : List PWRun) (text : List Byte) (start stop : Nat) : Option F :=
  (Loops.whileDo (fun s => decide (s.1 < stop)) (measureStep fonts runs text stop) fuel (start, 0)).map Prod.snd

def byteWidthOfSpan (fuel : Nat) (p : Para) (start stop : Nat) : Option F :=
  if p.imageAt F start then some (p.imageSizeAt start).1
  else if isByte kCellSep.val p.text start then some 0
  else measureWithRuns fonts fuel p.runs p.text start stop

end Writer
end Prose
