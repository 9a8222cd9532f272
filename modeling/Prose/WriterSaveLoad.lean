import Prose.WriterMessage
import Prose.WriterUndo
/-!
# WriterSaveLoad — loading what was saved

Every field of a document's message is found again under its name and its type, and as the runs of a document tile its paragraphs the
loader leaves the format of every byte.
-/
namespace Prose
namespace Writer

open BMessage

/-! ## What a message gives back -/

theorem intToColor_colorToInt (c : RgbColor) : intToColor (colorToInt c) = c := by
  obtain ⟨h0, h1, h2, h3⟩ := byteAt_pack c.red c.green c.blue c.alpha
  unfold intToColor colorToInt
  rw [h0, h1, h2, h3]

theorem ofInt8_toInt8 (b : UInt8) : ofInt8 (toInt8 b) = b := by
  unfold ofInt8 toInt8
  rw [Int8.ofInt_toInt]
  rfl

theorem PWAlignment.ofByte_byte (a : PWAlignment) : PWAlignment.ofByte a.byte = a := by
  cases a with
  | other c => exact dif_pos c.2
  | _ => rfl

theorem PWListKind.ofByte_byte (k : PWListKind) : PWListKind.ofByte k.byte = k := by
  cases k with
  | other c => exact dif_pos c.2
  | _ => rfl

theorem PWTabKind.ofByte_byte (k : PWTabKind) : PWTabKind.ofByte k.byte = k := by
  cases k with
  | other c => exact dif_pos c.2
  | _ => rfl

theorem familyCopy_val (f : FontFamily) : familyCopy f.val = f := Subtype.ext (List.take_of_length_le f.2)

theorem loadTab_message (t : PWTab) : loadTab t.message = t := by
  unfold loadTab PWTab.message findD
  simp [Field.float?, Field.int8?, ofInt8_toInt8, PWTabKind.ofByte_byte]

theorem unarchive_run (f₀ : PWCharFormat) (r : PWRun) : f₀.unarchive r.message = r.format := by
  unfold PWCharFormat.unarchive PWRun.message PWCharFormat.archive findD
  simp [Field.string?, Field.float?, Field.int32?, Field.bool?, familyCopy_val, intToColor_colorToInt]

theorem loadRun_message (dflt : PWCharFormat) (r : PWRun) : loadRun dflt r.message = { r with format := inherit dflt r.format } := by
  unfold loadRun
  rw [unarchive_run]
  unfold PWRun.message findD
  simp [Field.int32?]

theorem all_tabs (f : PWParaFormat) : all Field.message? "tab" f.archive = f.tabs.map PWTab.message := by
  unfold PWParaFormat.archive
  rw [all_append, all_map]
  simp [all, Field.message?]

theorem find_paraFormat {α : Type} (get : BMessage.Field Rat → Option α) (name : String) (htab : "tab" ≠ name) (f : PWParaFormat) :
    find get name f.archive = find get name
      [("align", .int8 (toInt8 f.alignment.byte)), ("il", .float f.indentLeft), ("ir", .float f.indentRight), ("if", .float f.indentFirst),
        ("ls", .float f.lineSpacing), ("sb", .float f.spaceBefore), ("sa", .float f.spaceAfter),
        ("list", .int8 (toInt8 f.listKind.byte))] := by
  unfold PWParaFormat.archive
  rw [find_append, find_map_of_ne get _ _ htab, Option.or_none]

theorem unarchive_paraFormat {m : BMessage Rat} {f : PWParaFormat}
    (hint8 : ∀ name, name = "align" ∨ name = "list" → find Field.int8? name m = find Field.int8? name f.archive)
    (hfloat : ∀ name, name ∈ ["il", "ir", "if", "ls", "sb", "sa"] → find Field.float? name m = find Field.float? name f.archive)
    (htabs : all Field.message? "tab" m = f.tabs.map PWTab.message) (f₀ : PWParaFormat) : f₀.unarchive m = f := by
  unfold PWParaFormat.unarchive findD
  rw [hint8 "align" (.inl rfl), hint8 "list" (.inr rfl), hfloat "il" (by decide), hfloat "ir" (by decide), hfloat "if" (by decide),
    hfloat "ls" (by decide), hfloat "sb" (by decide), hfloat "sa" (by decide), htabs, List.map_map,
    show loadTab ∘ PWTab.message = id from funext loadTab_message, List.map_id]
  simp [find_paraFormat, Field.int8?, Field.float?, ofInt8_toInt8, PWAlignment.ofByte_byte, PWListKind.ofByte_byte]

/-! ## A style -/

theorem loadStyle_message (s : PWStyle) : loadStyle s.message = s := by
  have hchr : ({ family := familyCopy [] } : PWCharFormat).unarchive s.message = s.chr := by
    unfold PWCharFormat.unarchive PWStyle.message PWCharFormat.archive findD
    simp [Field.string?, Field.float?, Field.int32?, Field.bool?, familyCopy_val, intToColor_colorToInt]
  have hpara : ({} : PWParaFormat).unarchive s.message = s.para := by
    refine unarchive_paraFormat (fun name hname => ?_) (fun name hname => ?_) ?_ _
    · rcases hname with rfl | rfl <;> simp [PWStyle.message, PWCharFormat.archive]
    · simp only [List.mem_cons, List.not_mem_nil, or_false] at hname
      rcases hname with rfl | rfl | rfl | rfl | rfl | rfl <;> simp [PWStyle.message, PWCharFormat.archive]
    · unfold PWStyle.message
      rw [all_append, all_append, all_tabs]
      simp [all, PWCharFormat.archive, Field.message?]
  unfold loadStyle
  rw [hchr, hpara]
  unfold findD PWStyle.message
  simp [Field.string?]

/-! ## A paragraph -/

variable (bitmapOf : BitmapOf)

theorem imageOffset_message (o : Int) (img : PWImage) : imageOffset (imageMessage o img) = o := by
  unfold imageOffset findD imageMessage
  simp [Field.int32?]

theorem loadImage_message (o : Int) (img : PWImage) : (loadImage bitmapOf (imageMessage o img)).widthPt = img.widthPt ∧
    (loadImage bitmapOf (imageMessage o img)).heightPt = img.heightPt := by
  unfold loadImage findD imageMessage
  simp [Field.float?]

theorem textOf_message (p : Para) : textOf p.message = p.text := by
  unfold textOf findD Para.message
  simp [Field.string?]

theorem all_runs (p : Para) : all Field.message? "run" p.message = p.runs.map PWRun.message := by
  unfold Para.message PWParaFormat.archive
  rw [all_append, all_append, all_append, all_append, all_map, all_map_of_ne _ _ _ (by decide), all_map_of_ne _ _ _ (by decide)]
  simp [all, Field.message?]

theorem all_images (p : Para) : all Field.message? "image" p.message = p.images.entries.map (fun e => imageMessage e.1 e.2) := by
  unfold Para.message PWParaFormat.archive
  rw [all_append, all_append, all_append, all_append, all_map, all_map_of_ne _ _ _ (by decide), all_map_of_ne _ _ _ (by decide)]
  simp [all, Field.message?]

theorem unarchive_para (p : Para) (f₀ : PWParaFormat) : f₀.unarchive p.message = p.format := by
  refine unarchive_paraFormat (fun name hname => ?_) (fun name hname => ?_) ?_ _
  · unfold Para.message
    rcases hname with rfl | rfl <;> simp [find_map_of_ne]
  · unfold Para.message
    simp only [List.mem_cons, List.not_mem_nil, or_false] at hname
    rcases hname with rfl | rfl | rfl | rfl | rfl | rfl <;> simp [find_map_of_ne]
  · unfold Para.message
    rw [all_append, all_append, all_append, all_tabs, all_map_of_ne _ _ _ (by decide), all_map_of_ne _ _ _ (by decide)]
    simp [all, Field.message?]

/-! ## Runs with other formats -/

/-- The same runs, each format sent through `g`. -/
def restyled (g : PWCharFormat → PWCharFormat) (rs : List PWRun) : List PWRun := rs.map (fun r => { r with format := g r.format })

theorem formats_restyled (g : PWCharFormat → PWCharFormat) (rs : List PWRun) : formats (restyled g rs) = (formats rs).map g := by
  unfold formats restyled
  rw [List.flatMap_map, List.map_flatMap]
  refine congrArg (List.flatMap · rs) (funext fun r => ?_)
  rw [List.map_replicate]

theorem Tiles.restyled {g : PWCharFormat → PWCharFormat} : ∀ {a b : Int} {rs : List PWRun}, Tiles a rs b → Tiles a (restyled g rs) b
  | _, _, [], h => h
  | _, _, _ :: _, ⟨hs, hl, h⟩ => ⟨hs, hl, h.restyled⟩

/-! ## A document -/

/-- Documents made by calls, and by loading messages whose run records cover the texts they stand by. -/
inductive Opened (plain : FontFamily) : PWDocument → Prop
  | new : Opened plain (PWDocument.new plain)
  | calls {d d' : PWDocument} : Opened plain d → Calls d d' → Opened plain d'
  | load {d : PWDocument} {m : BMessage Rat} : Opened plain d →
      (∀ record ∈ paraRecords m, InOrder (runRecords (makeDefaultFormat plain) record) (textOf record).length) →
      Opened plain (d.loadFromMessage bitmapOf plain m)

theorem normalizeRuns_tiles (dflt : PWCharFormat) {rs : List PWRun} {n : Nat} (h : InOrder rs n) : Tiles 0 (normalizeRuns dflt n rs) n := by
  have htiles := (normalizeRuns_tiles_iff dflt rs n).2 h
  unfold normalizeRuns at htiles ⊢
  split at htiles
  · exact ⟨rfl, Int.natCast_nonneg _, Int.zero_add _⟩
  · rwa [covering_foldl_mergeRun] at htiles

variable {bitmapOf} in
theorem Opened.tiled {plain : FontFamily} {d : PWDocument} (h : Opened bitmapOf plain d) : Tiled d.fParas := by
  induction h with
  | new =>
    intro p hp
    rw [List.mem_singleton.1 hp]
    exact ⟨rfl, Int.le_refl 0, rfl⟩
  | calls _ hc ih => exact paraInv_tiled.evolves (Calls.evolves hc) ih
  | @load d m _ hm _ =>
    show ∀ p ∈ loadParas bitmapOf d.fDefault (makeDefaultFormat plain) d.fNextParaId m, p.Tiled
    unfold loadParas
    split
    · intro p hp
      rw [List.mem_singleton.1 hp]
      exact ⟨rfl, Int.le_refl 0, rfl⟩
    intro p hp
    obtain ⟨⟨record, id⟩, hrecord, rfl⟩ := List.mem_map.1 hp
    have hrecord := hm record (List.fst_mem_of_mem_zipIdx hrecord)
    refine normalizeRuns_tiles d.fDefault ?_
    dsimp only
    split
    · exact .inr (Tiles.filter ⟨rfl, Int.natCast_nonneg _, Int.zero_add _⟩)
    · exact hrecord

variable {bitmapOf} in
theorem Opened.ne_nil {plain : FontFamily} {d : PWDocument} (h : Opened bitmapOf plain d) : d.fParas ≠ [] := by
  induction h with
  | new => exact List.cons_ne_nil _ _
  | calls _ hc ih => exact Evolves.ne_nil (Calls.evolves hc) ih
  | load _ _ _ => exact loadFromMessage_ne_nil _ _ _ _

def imageSizes (images : ImageTable) : List (Int × Rat × Rat) := images.entries.map (fun e => (e.1, e.2.widthPt, e.2.heightPt))

/-- What comes back of a paragraph; `f` and `f'` are the default formats of the two documents, `dflt` the system's. -/
structure Kept (dflt f f' : PWCharFormat) (p p' : Para) : Prop where
  text : p'.text = p.text
  chars : ∀ k, k < p.text.length → p'.formatAt f' k = inherit dflt (p.formatAt f k)
  format : p'.format = p.format
  images : imageSizes p'.images = imageSizes p.images

theorem loadPara_message (dflt f f' : PWCharFormat) (id : Nat) {p : Para} (hp : p.Tiled) :
    Kept dflt f f' p (loadPara bitmapOf f' dflt id p.message) := by
  have hrecords : runRecords dflt p.message = restyled (inherit dflt) p.runs := by
    unfold runRecords
    rw [all_runs, List.map_map]
    exact congrArg (List.map · p.runs) (funext (loadRun_message dflt))
  -- the runs that are normalized tile the text and have the formats
  have hruns : Tiles 0 (if (runRecords dflt p.message).isEmpty then [⟨0, (textOf p.message).length, dflt⟩] else runRecords dflt p.message)
      p.text.length ∧ formats (if (runRecords dflt p.message).isEmpty then [⟨0, (textOf p.message).length, dflt⟩]
        else runRecords dflt p.message) = (formats p.runs).map (inherit dflt) := by
    rw [hrecords, textOf_message]
    cases hnil : p.runs with
    | nil =>
      have hempty : (0 : Int) = p.text.length := by
        have := hp
        unfold Para.Tiled at this
        rwa [hnil] at this
      refine ⟨⟨rfl, Int.natCast_nonneg _, Int.zero_add _⟩, ?_⟩
      simp [restyled, formats, ← hempty]
    | cons r rs =>
      have := hp.restyled (g := inherit dflt)
      rw [hnil] at this
      exact ⟨this, formats_restyled _ _⟩
  have hnormal := normalizeRuns_spec f' hruns.1
  have htiled : (loadPara bitmapOf f' dflt id p.message).Tiled := by
    unfold Para.Tiled loadPara
    dsimp only
    rw [textOf_message]
    rw [textOf_message] at hnormal
    exact hnormal.1
  refine ⟨textOf_message p, fun k hk => ?_, unarchive_para p _, ?_⟩
  · have hloaded := htiled.formatAt f' (k := k) (by rwa [show (loadPara bitmapOf f' dflt id p.message).text = p.text from textOf_message p])
    have hsaved := hp.formatAt f hk
    have hformats : formats (loadPara bitmapOf f' dflt id p.message).runs = (formats p.runs).map (inherit dflt) := by
      rw [← hruns.2, ← hnormal.2]
      unfold loadPara
      rw [textOf_message]
    rw [hformats, List.getElem?_map, hsaved] at hloaded
    exact (Option.some.inj hloaded).symm
  · unfold imageSizes loadPara
    dsimp only
    rw [all_images, List.foldl_map]
    simp only [imageOffset_message]
    rw [SortedMap.entries_foldl_set (fun e : Int × PWImage => e.1) (fun e => loadImage bitmapOf (imageMessage e.1 e.2))]
    · show List.map _ ([] ++ _) = _
      rw [List.nil_append, List.map_map]
      refine List.map_congr_left fun e _ => ?_
      obtain ⟨hw, hh⟩ := loadImage_message bitmapOf e.1 e.2
      dsimp only [Function.comp_apply]
      rw [hw, hh]
    · show List.Pairwise _ ([] ++ _)
      rw [List.nil_append, List.pairwise_map]
      exact p.images.sorted

theorem paraRecords_message (d : PWDocument) : paraRecords d.saveToMessage = d.fParas.map Para.message := by
  unfold paraRecords PWDocument.saveToMessage
  rw [all_append, all_append, all_map, all_map_of_ne _ _ _ (by decide)]
  simp [all, Field.message?]

theorem styles_message (d : PWDocument) : (all Field.message? "style" d.saveToMessage).map loadStyle = d.fStyles := by
  unfold PWDocument.saveToMessage
  rw [all_append, all_append, all_map, all_map_of_ne _ _ _ (by decide)]
  have hhead : all Field.message? "style" [("header", Field.string d.fHeader), ("footer", Field.string d.fFooter)] = ([] : List (BMessage Rat)) := by
    simp [all, Field.message?]
  rw [hhead, List.nil_append, List.append_nil, show (fun s : PWStyle => (Field.message s.message : BMessage.Field Rat).message?) =
    some ∘ PWStyle.message from rfl, List.filterMap_eq_map, List.map_map]
  exact (congrArg (List.map · d.fStyles) (funext loadStyle_message)).trans (List.map_id _)

/-- **Loading what was saved gives the paragraphs back**: their texts, the format of every byte, an empty family read as the default one,
the paragraph formats, where the images are and how large, and the header, the footer and the styles. -/
theorem save_load {plain : FontFamily} {d : PWDocument} (h : Opened bitmapOf plain d) (d₀ : PWDocument) (plain₀ : FontFamily) :
    List.Forall₂ (Kept (makeDefaultFormat plain₀) d.fDefault d₀.fDefault) d.fParas
        (d₀.loadFromMessage bitmapOf plain₀ d.saveToMessage).fParas ∧
      (d₀.loadFromMessage bitmapOf plain₀ d.saveToMessage).fHeader = d.fHeader ∧
      (d₀.loadFromMessage bitmapOf plain₀ d.saveToMessage).fFooter = d.fFooter ∧
      (d₀.loadFromMessage bitmapOf plain₀ d.saveToMessage).fStyles = d.fStyles := by
  refine ⟨?_, ?_, ?_, styles_message d⟩
  · show List.Forall₂ _ d.fParas (loadParas bitmapOf d₀.fDefault (makeDefaultFormat plain₀) d₀.fNextParaId d.saveToMessage)
    have hne : d.fParas ≠ [] := h.ne_nil
    unfold loadParas
    rw [paraRecords_message, if_neg (by rwa [List.isEmpty_iff, List.map_eq_nil_iff]), List.zipIdx_map, List.map_map]
    refine List.forall₂_iff_get.2 ⟨by simp, fun i hi hi' => ?_⟩
    simp only [List.get_eq_getElem, List.getElem_map, List.getElem_zipIdx, Function.comp_apply, Prod.map]
    exact loadPara_message bitmapOf _ _ _ _ (h.tiled _ (List.getElem_mem _))
  · unfold PWDocument.loadFromMessage PWDocument.saveToMessage findD
    simp [Field.string?]
  · unfold PWDocument.loadFromMessage PWDocument.saveToMessage findD
    simp [Field.string?]

theorem save_load_mergedBold : ∃ d, callAll (PWDocument.new noFamily) mergedBold = some d ∧
    List.Forall₂ (Kept (makeDefaultFormat noFamily) d.fDefault (makeDefaultFormat noFamily)) d.fParas
        ((PWDocument.new noFamily).loadFromMessage (fun _ _ _ => none) noFamily d.saveToMessage).fParas ∧
      ((PWDocument.new noFamily).loadFromMessage (fun _ _ _ => none) noFamily d.saveToMessage).fHeader = d.fHeader ∧
      ((PWDocument.new noFamily).loadFromMessage (fun _ _ _ => none) noFamily d.saveToMessage).fFooter = d.fFooter ∧
      ((PWDocument.new noFamily).loadFromMessage (fun _ _ _ => none) noFamily d.saveToMessage).fStyles = d.fStyles :=
  ⟨_, rfl, save_load _ (.calls .new (Calls.of_callAll mergedBold rfl)) (PWDocument.new noFamily) noFamily⟩

end Writer
end Prose
