import Prose.BMessage
import Prose.WriterInvariants
/-!
# WriterMessage — `SaveToMessage` and `LoadFromMessage`

What a document is saved as, and what loading a message makes of the document that was open.  The loader takes a paragraph's run
records and the offsets of its images as they stand: their lengths and their places are checked nowhere.
-/
namespace Prose
namespace Writer

open BMessage List

/-! ## Formats -/

def colorToInt (c : RgbColor) : Int := pack c.red c.green c.blue c.alpha

def intToColor (v : Int) : RgbColor := ⟨byteAt v 0, byteAt v 8, byteAt v 16, byteAt v 24⟩

/-- `strlcpy` into a `font_family`. -/
theorem length_familyCopy (s : List Byte) : (s.take 63).length ≤ 63 := length_take_le 63 s

def familyCopy (s : List Byte) : FontFamily := ⟨s.take 63, length_familyCopy s⟩

def PWCharFormat.archive (f : PWCharFormat) : BMessage Rat :=
  [("family", .string f.family.val), ("size", .float f.size), ("color", .int32 (colorToInt f.color)), ("bold", .bool f.bold),
    ("italic", .bool f.italic), ("underline", .bool f.underline)]

def PWCharFormat.unarchive (f : PWCharFormat) (m : BMessage Rat) : PWCharFormat where
  family := familyCopy (findD Field.string? "family" [] m)
  size := findD Field.float? "size" f.size m
  color := ((find Field.int32? "color" m).map intToColor).getD f.color
  bold := findD Field.bool? "bold" f.bold m
  italic := findD Field.bool? "italic" f.italic m
  underline := findD Field.bool? "underline" f.underline m

def PWAlignment.byte : PWAlignment → UInt8
  | .left => 0
  | .center => 1
  | .right => 2
  | .justify => 3
  | .other c => c

/-- The cast to `PWAlignment`. -/
def PWAlignment.ofByte (b : UInt8) : PWAlignment :=
  if h : 4 ≤ b then .other ⟨b, h⟩ else if b = 0 then .left else if b = 1 then .center else if b = 2 then .right else .justify

def PWListKind.byte : PWListKind → UInt8
  | .none => 0
  | .bullet => 1
  | .number => 2
  | .other c => c

/-- The cast to `PWListKind`. -/
def PWListKind.ofByte (b : UInt8) : PWListKind :=
  if h : 3 ≤ b then .other ⟨b, h⟩ else if b = 0 then .none else if b = 1 then .bullet else .number

def PWTabKind.byte : PWTabKind → UInt8
  | .left => 0
  | .center => 1
  | .right => 2
  | .other c => c

/-- The cast to `PWTabKind`. -/
def PWTabKind.ofByte (b : UInt8) : PWTabKind :=
  if h : 3 ≤ b then .other ⟨b, h⟩ else if b = 0 then .left else if b = 1 then .center else .right

/-- `(int8)`, and back to a `uint8`. -/
def toInt8 (b : UInt8) : Int := b.toInt8.toInt
def ofInt8 (v : Int) : UInt8 := (Int8.ofInt v).toUInt8

def PWTab.message (t : PWTab) : BMessage Rat := [("x", .float t.x), ("kind", .int8 (toInt8 t.kind.byte))]

def loadTab (m : BMessage Rat) : PWTab where
  x := findD Field.float? "x" 0 m
  kind := ((find Field.int8? "kind" m).map fun k => PWTabKind.ofByte (ofInt8 k)).getD .left

def PWParaFormat.archive (f : PWParaFormat) : BMessage Rat :=
  [("align", .int8 (toInt8 f.alignment.byte)), ("il", .float f.indentLeft), ("ir", .float f.indentRight), ("if", .float f.indentFirst),
    ("ls", .float f.lineSpacing), ("sb", .float f.spaceBefore), ("sa", .float f.spaceAfter), ("list", .int8 (toInt8 f.listKind.byte))] ++
  f.tabs.map (fun t => ("tab", .message t.message))

def PWParaFormat.unarchive (f : PWParaFormat) (m : BMessage Rat) : PWParaFormat where
  alignment := ((find Field.int8? "align" m).map fun v => PWAlignment.ofByte (ofInt8 v)).getD f.alignment
  indentLeft := findD Field.float? "il" f.indentLeft m
  indentRight := findD Field.float? "ir" f.indentRight m
  indentFirst := findD Field.float? "if" f.indentFirst m
  lineSpacing := findD Field.float? "ls" f.lineSpacing m
  spaceBefore := findD Field.float? "sb" f.spaceBefore m
  spaceAfter := findD Field.float? "sa" f.spaceAfter m
  listKind := ((find Field.int8? "list" m).map fun v => PWListKind.ofByte (ofInt8 v)).getD f.listKind
  tabs := (all Field.message? "tab" m).map loadTab

/-! ## Saving -/

def PWRun.message (r : PWRun) : BMessage Rat := [("start", .int32 r.start), ("length", .int32 r.length)] ++ r.format.archive

def imageMessage (offset : Int) (img : PWImage) : BMessage Rat :=
  [("offset", .int32 offset), ("w", .float img.widthPt), ("h", .float img.heightPt)] ++
  match img.bitmap with
  | none => []
  | some b => [("bw", .float b.width), ("bh", .float b.height), ("bits", .data (b.bits.take (b.width * b.height * 4)))]

def Para.message (p : Para) : BMessage Rat :=
  [("text", .string p.text)] ++ p.format.archive ++ p.images.entries.map (fun e => ("image", .message (imageMessage e.1 e.2))) ++
  p.runs.map (fun r => ("run", .message r.message))

def PWStyle.message (s : PWStyle) : BMessage Rat := [("name", .string s.name)] ++ s.chr.archive ++ s.para.archive

def PWDocument.saveToMessage (d : PWDocument) : BMessage Rat :=
  [("header", .string d.fHeader), ("footer", .string d.fFooter)] ++ d.fStyles.map (fun s => ("style", .message s.message)) ++
  d.fParas.map (fun p => ("para", .message p.message))

/-! ## Loading -/

def inherit (dflt f : PWCharFormat) : PWCharFormat := if f.family.val = [] then { f with family := dflt.family } else f

def loadRun (dflt : PWCharFormat) (m : BMessage Rat) : PWRun where
  start := findD Field.int32? "start" 0 m
  length := findD Field.int32? "length" 0 m
  format := inherit dflt (({ family := familyCopy [] } : PWCharFormat).unarchive m)

/-- `BBitmap(BRect(0, 0, bw - 1, bh - 1), B_RGB32)` and `ImportBits`, where they succeed. -/
abbrev BitmapOf := Rat → Rat → List UInt8 → Option Bitmap

variable (bitmapOf : BitmapOf)

def loadImage (m : BMessage Rat) : PWImage where
  widthPt := findD Field.float? "w" 0 m
  heightPt := findD Field.float? "h" 0 m
  bitmap := (find Field.data? "bits" m).bind (bitmapOf (findD Field.float? "bw" 1 m) (findD Field.float? "bh" 1 m))

def imageOffset (m : BMessage Rat) : Int := findD Field.int32? "offset" 0 m

def textOf (m : BMessage Rat) : List Byte := findD Field.string? "text" [] m
def runRecords (dflt : PWCharFormat) (m : BMessage Rat) : List PWRun := (all Field.message? "run" m).map (loadRun dflt)

/-- A paragraph record; `dflt` is the system's default format, `fDefault` the document's. -/
def loadPara (fDefault dflt : PWCharFormat) (id : Nat) (m : BMessage Rat) : Para where
  text := textOf m
  runs := normalizeRuns fDefault (textOf m).length
    (if (runRecords dflt m).isEmpty then [⟨0, (textOf m).length, dflt⟩] else runRecords dflt m)
  format := ({} : PWParaFormat).unarchive m
  images := (all Field.message? "image" m).foldl (fun t im => t.set (imageOffset im) (loadImage bitmapOf im)) SortedMap.empty
  id := id

def loadStyle (m : BMessage Rat) : PWStyle where
  name := findD Field.string? "name" [] m
  chr := ({ family := familyCopy [] } : PWCharFormat).unarchive m
  para := ({} : PWParaFormat).unarchive m

def paraRecords (m : BMessage Rat) : List (BMessage Rat) := all Field.message? "para" m

def loadParas (fDefault dflt : PWCharFormat) (nextId : Nat) (m : BMessage Rat) : List Para :=
  if (paraRecords m).isEmpty then [{ runs := [⟨0, 0, dflt⟩], id := nextId }]
  else ((paraRecords m).zipIdx nextId).map (fun r => loadPara bitmapOf fDefault dflt r.2 r.1)

/-- `plain` is the family of the system's plain font. -/
def PWDocument.loadFromMessage (d : PWDocument) (plain : FontFamily) (m : BMessage Rat) : PWDocument :=
  let paras := loadParas bitmapOf d.fDefault (makeDefaultFormat plain) d.fNextParaId m
  { d with
    fParas := paras
    fNextParaId := d.fNextParaId + paras.length
    fUndo := [], fRedo := []
    fHeader := findD Field.string? "header" [] m
    fFooter := findD Field.string? "footer" [] m
    fStyles := (all Field.message? "style" m).map loadStyle
    fModified := false }

theorem loadFromMessage_ne_nil (d : PWDocument) (plain : FontFamily) (m : BMessage Rat) :
    (d.loadFromMessage bitmapOf plain m).fParas ≠ [] := by
  show loadParas bitmapOf d.fDefault (makeDefaultFormat plain) d.fNextParaId m ≠ []
  unfold loadParas
  split
  · exact cons_ne_nil _ _
  · rename_i hne
    rw [Ne, map_eq_nil_iff, zipIdx_eq_nil_iff]
    rwa [List.isEmpty_iff] at hne

/-! ## Runs that stand as they are -/

def covering (rs : List PWRun) : List PWRun := rs.filter (fun r => 0 < r.length)

theorem covering_cons (r : PWRun) (rs : List PWRun) : covering (r :: rs) = (if 0 < r.length then [r] else []) ++ covering rs := by
  unfold covering
  rw [filter_cons]
  by_cases h : 0 < r.length
  · rw [if_pos (decide_eq_true h), if_pos h]
    rfl
  · rw [if_neg (by simpa using h), if_neg h]
    rfl

theorem tiles_merged {a b : Int} {pre rest : List PWRun} {last r : PWRun} (hlast : 0 < last.length) (hr : 0 < r.length)
    (htouch : last.rEnd = r.start) :
    Tiles a (pre ++ { last with length := last.length + r.length } :: rest) b ↔ Tiles a (pre ++ last :: r :: rest) b := by
  have hend : ({ last with length := last.length + r.length } : PWRun).rEnd = r.rEnd := by
    unfold PWRun.rEnd at htouch ⊢
    dsimp only
    omega
  rw [tiles_append_iff, tiles_append_iff]
  refine exists_congr fun c => and_congr_right fun _ => ?_
  constructor
  · rintro ⟨hs, -, h⟩
    rw [hend] at h
    exact ⟨hs, hlast.le, htouch.symm, hr.le, h⟩
  · rintro ⟨hs, -, -, -, h⟩
    refine ⟨hs, by dsimp only; omega, ?_⟩
    rw [hend]
    exact h

theorem mergeRun_tiles {a b : Int} {merged : List PWRun} (hm : ∀ x ∈ merged, 0 < x.length) (r : PWRun) (rest : List PWRun) :
    (∀ x ∈ mergeRun merged r, 0 < x.length) ∧
      (Tiles a (mergeRun merged r ++ rest) b ↔ Tiles a (merged ++ (covering [r] ++ rest)) b) := by
  rw [covering_cons]
  unfold mergeRun
  by_cases h0 : r.length ≤ 0
  · rw [if_pos h0, if_neg (Int.not_lt.2 h0)]
    exact ⟨hm, Iff.rfl⟩
  have hr : 0 < r.length := Int.not_le.1 h0
  rw [if_neg h0, if_pos hr]
  cases hlast : merged.getLast? with
  | none =>
    rw [getLast?_eq_none_iff.1 hlast]
    exact ⟨fun x hx => by rwa [mem_singleton.1 hx], Iff.rfl⟩
  | some last =>
    obtain ⟨pre, rfl⟩ := getLast?_eq_some_iff.1 hlast
    have hpos : 0 < last.length := hm last (mem_append_right _ (mem_singleton_self _))
    dsimp only
    split
    · rename_i htouch
      rw [dropLast_concat]
      constructor
      · intro x hx
        rcases mem_append.1 hx with hx | hx
        · exact hm x (mem_append_left _ hx)
        · rw [mem_singleton.1 hx]
          exact Int.add_pos hpos hr
      · rw [append_assoc, append_assoc]
        exact tiles_merged hpos hr htouch.2
    · constructor
      · intro x hx
        rcases mem_append.1 hx with hx | hx
        · exact hm x hx
        · rwa [mem_singleton.1 hx]
      · rw [append_assoc]
        rfl

/-- `NormalizeRuns` drops the runs of no length and joins others; where runs lie it leaves. -/
theorem foldl_mergeRun_tiles (a b : Int) : ∀ (rs : List PWRun) {merged : List PWRun}, (∀ x ∈ merged, 0 < x.length) →
    (∀ x ∈ rs.foldl mergeRun merged, 0 < x.length) ∧ (Tiles a (rs.foldl mergeRun merged) b ↔ Tiles a (merged ++ covering rs) b)
  | [], merged, hm => by
    rw [foldl_nil, covering, filter_nil, append_nil]
    exact ⟨hm, Iff.rfl⟩
  | r :: rs, merged, hm => by
    have hstep := mergeRun_tiles (a := a) (b := b) hm r (covering rs)
    obtain ⟨hpos, htiles⟩ := foldl_mergeRun_tiles a b rs hstep.1
    refine ⟨hpos, htiles.trans (hstep.2.trans ?_)⟩
    rw [covering_cons r rs, covering_cons r []]
    simp only [covering, filter_nil, append_nil]

theorem foldl_mergeRun_pos (rs : List PWRun) : ∀ x ∈ rs.foldl mergeRun [], 0 < x.length :=
  (foldl_mergeRun_tiles 0 0 rs fun _ hx => absurd hx not_mem_nil).1

theorem covering_foldl_mergeRun (rs : List PWRun) : covering (rs.foldl mergeRun []) = rs.foldl mergeRun [] :=
  filter_eq_self.2 fun x hx => decide_eq_true (foldl_mergeRun_pos rs x hx)

theorem tiles_foldl_mergeRun {a b : Int} {rs : List PWRun} : Tiles a (rs.foldl mergeRun []) b ↔ Tiles a (covering rs) b :=
  (foldl_mergeRun_tiles a b rs fun _ hx => absurd hx not_mem_nil).2

theorem tiles_self_nil {a : Int} {rs : List PWRun} (hpos : ∀ r ∈ rs, 0 < r.length) (h : Tiles a rs a) : rs = [] := by
  cases rs with
  | nil => rfl
  | cons r rs =>
    obtain ⟨hs, -, h⟩ := h
    have := h.le
    have := hpos r mem_cons_self
    unfold PWRun.rEnd at *
    omega

theorem covering_pos (rs : List PWRun) : ∀ r ∈ covering rs, 0 < r.length := fun _ hr => of_decide_eq_true (mem_filter.1 hr).2

/-- The runs that cover anything: none, or one behind the other from 0 to the end. -/
def InOrder (rs : List PWRun) (n : Nat) : Prop := covering rs = [] ∨ Tiles 0 (covering rs) n

theorem normalizeRuns_tiles_iff (dflt : PWCharFormat) (rs : List PWRun) (n : Nat) :
    Tiles 0 (covering (normalizeRuns dflt n rs)) n ↔ InOrder rs n := by
  unfold normalizeRuns InOrder
  split
  · rename_i hmerged
    have hnone : covering rs = [] := by
      refine tiles_self_nil (covering_pos rs) (tiles_foldl_mergeRun.1 ?_ : Tiles 0 _ 0)
      rw [hmerged]
      exact rfl
    refine iff_of_true ?_ (.inl hnone)
    rw [covering_cons]
    by_cases h : 0 < (n : Int)
    · rw [if_pos h]
      exact ⟨rfl, h.le, by simp [PWRun.rEnd, covering, Tiles]⟩
    · rw [if_neg h]
      show (0 : Int) = n
      omega
  · rename_i hne
    rw [covering_foldl_mergeRun, tiles_foldl_mergeRun]
    refine ⟨.inr, fun h => h.resolve_left fun hnone => hne ?_⟩
    refine tiles_self_nil (foldl_mergeRun_pos rs) (tiles_foldl_mergeRun.2 ?_ : Tiles 0 _ 0)
    rw [hnone]
    exact rfl

/-! ## Images -/

def Para.ImagesInside (p : Para) : Prop := ∀ k img, p.images.get? k = some img → 0 ≤ k ∧ k < p.text.length

theorem isSome_get?_foldl_set {α β κ : Type} [LinearOrder κ] (key : α → κ) (val : α → β) (k : κ) : ∀ (l : List α) (t : SortedMap κ β),
    ((l.foldl (fun t x => t.set (key x) (val x)) t).get? k).isSome ↔ (∃ x ∈ l, key x = k) ∨ (t.get? k).isSome
  | [], t => by simp
  | x :: l, t => by
    rw [foldl_cons, isSome_get?_foldl_set key val k l, SortedMap.get?_set]
    by_cases h : key x = k
    · simp [h]
    · simp [h, Ne.symm h]

/-! ## The claim -/

/-- What a paragraph record would have to be: its run records in order over its text, its image offsets in it. -/
structure RecordOk (dflt : PWCharFormat) (m : BMessage Rat) : Prop where
  runs : InOrder (runRecords dflt m) (textOf m).length
  images : ∀ im ∈ all Field.message? "image" m, 0 ≤ imageOffset im ∧ imageOffset im < (textOf m).length

theorem loadPara_ok (fDefault dflt : PWCharFormat) (id : Nat) (m : BMessage Rat) :
    Tiles 0 (covering (loadPara bitmapOf fDefault dflt id m).runs) (loadPara bitmapOf fDefault dflt id m).text.length ∧
      (loadPara bitmapOf fDefault dflt id m).ImagesInside ↔ RecordOk dflt m := by
  have hruns : Tiles 0 (covering (loadPara bitmapOf fDefault dflt id m).runs) (textOf m).length ↔
      InOrder (runRecords dflt m) (textOf m).length := by
    refine (normalizeRuns_tiles_iff fDefault _ _).trans ?_
    cases hrecords : runRecords dflt m with
    | nil =>
      -- one run over the whole text
      rw [← normalizeRuns_tiles_iff fDefault]
      refine iff_of_true ?_ (.inl rfl)
      have hwhole : Tiles 0 [⟨0, (textOf m).length, dflt⟩] (textOf m).length := ⟨rfl, Int.natCast_nonneg _, Int.zero_add _⟩
      exact Tiles.filter (normalizeRuns_spec fDefault hwhole).1
    | cons r rs => exact Iff.rfl
  have himages : (loadPara bitmapOf fDefault dflt id m).ImagesInside ↔
      ∀ im ∈ all Field.message? "image" m, 0 ≤ imageOffset im ∧ imageOffset im < (textOf m).length := by
    have hkeys := fun k => isSome_get?_foldl_set imageOffset (loadImage bitmapOf) k (all Field.message? "image" m) SortedMap.empty
    constructor
    · intro h im him
      obtain ⟨img, himg⟩ := Option.isSome_iff_exists.1 ((hkeys (imageOffset im)).2 (.inl ⟨im, him, rfl⟩))
      exact h _ img himg
    · intro h k img himg
      rcases (hkeys k).1 (Option.isSome_iff_exists.2 ⟨img, himg⟩) with ⟨im, him, rfl⟩ | hnone
      · exact h im him
      · cases hnone
  exact (and_congr hruns himages).trans ⟨fun h => ⟨h.1, h.2⟩, fun h => ⟨h.runs, h.images⟩⟩

/-- **What a message loads as tiles its text with its runs and has its images in it exactly if every paragraph record says so.** -/
theorem load_tiles_iff (d : PWDocument) (plain : FontFamily) (m : BMessage Rat) :
    (∀ p ∈ (d.loadFromMessage bitmapOf plain m).fParas, Tiles 0 (covering p.runs) p.text.length ∧ p.ImagesInside) ↔
      ∀ record ∈ paraRecords m, RecordOk (makeDefaultFormat plain) record := by
  show (∀ p ∈ loadParas bitmapOf d.fDefault (makeDefaultFormat plain) d.fNextParaId m, _) ↔ _
  unfold loadParas
  cases hrecords : paraRecords m with
  | nil =>
    refine iff_of_true (fun p hp => ?_) fun record h => absurd h not_mem_nil
    rw [mem_singleton.1 hp]
    exact ⟨rfl, fun k img h => by cases h⟩
  | cons r rs =>
    rw [← hrecords, if_neg (by rw [hrecords]; exact Bool.false_ne_true)]
    constructor
    · intro h record hrecord
      obtain ⟨i, hi⟩ := mem_iff_getElem?.1 hrecord
      refine (loadPara_ok bitmapOf d.fDefault _ (d.fNextParaId + i) record).1 (h _ (mem_map.2 ⟨(record, d.fNextParaId + i), ?_, rfl⟩))
      rw [mem_iff_getElem?]
      exact ⟨i, by rw [getElem?_zipIdx, hi]; rfl⟩
    · intro h p hp
      obtain ⟨⟨record, id⟩, hrecord, rfl⟩ := mem_map.1 hp
      exact (loadPara_ok bitmapOf d.fDefault _ id record).2 (h record (fst_mem_of_mem_zipIdx hrecord))

/-- A paragraph `ab` with one run, behind its text. -/
def strayRun : BMessage Rat :=
  [("para", .message [("text", .string [byteA, byteB]),
    ("run", .message [("start", .int32 5), ("length", .int32 1)])])]

theorem load_strayRun : ¬ ∀ m : BMessage Rat, ∀ p ∈ ((PWDocument.new noFamily).loadFromMessage (fun _ _ _ => none) noFamily m).fParas,
    Tiles 0 (covering p.runs) p.text.length ∧ p.ImagesInside := by
  intro hall
  obtain ⟨⟨hs, -⟩, -⟩ := hall strayRun _ mem_cons_self
  exact absurd hs (by decide)

end Writer
end Prose
