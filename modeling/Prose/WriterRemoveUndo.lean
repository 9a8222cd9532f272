import Mathlib.Data.Nat.Find
import Prose.WriterBoard
import Prose.WriterUndo
/-!
# WriterRemoveUndo — a removal and its undoing

Undoing a removal gives every byte its format back, but not the paragraphs theirs: a paragraph whose separator was
swallowed comes back with the format of the paragraph the removal began in (`remove_undo_formats`).  It gives the images
back exactly when none stood at or behind the first separator of the range (`remove_undo_images`).
-/
namespace Prose
namespace Writer

open Splice List

/-! ## The slots of a text put back -/

theorem slots_applyFormat {d d' : PWDocument} {offset length : Nat} {fmt : PWCharFormat}
    (h : d.applyFormat offset length fmt = some d') : slots d'.fParas = slots d.fParas := by
  rw [← map_snd_board, board_applyFormat h, map_snd_board]

theorem slots_applyRuns (offset : Nat) : ∀ (rs : List PWRun) {d d' : PWDocument}, applyRuns offset rs d = some d' →
    slots d'.fParas = slots d.fParas
  | [], _, _, h => by
    cases h
    rfl
  | r :: rs, d, d', h => by
    unfold applyRuns at h
    split at h
    · obtain ⟨d₁, h1, h2⟩ := Option.bind_eq_some_iff.1 h
      rw [slots_applyRuns offset rs h2, slots_applyFormat h1]
    · exact slots_applyRuns offset rs h

theorem slots_putBack {d d' : PWDocument} {s : UndoStep} (hne : d.fParas ≠ []) (ho : s.offset ≤ docLength d.fParas)
    (h : d.putBack s = some d') :
    slots d'.fParas = insertAt s.offset (List.replicate s.text.length none) (slots d.fParas) := by
  unfold PWDocument.putBack at h
  obtain ⟨d₁, h1, h2⟩ := Option.bind_eq_some_iff.1 h
  rw [slots_applyRuns s.offset s.runs h2, slots_applyFormat h1, slots_insert hne, Nat.min_eq_left ho]

/-! ## Undoing the removal -/

theorem remove_clip {d : PWDocument} {offset length : Nat} (h0 : 0 < length) (ho : offset < docLength d.fParas) :
    d.remove offset length = d.remove offset (clipLength d.fParas offset length) := by
  obtain ⟨hc, hr⟩ := clipLength_pos h0 ho
  unfold PWDocument.remove
  rw [if_neg (by omega), if_neg (by omega), clipLength_eq hr]

theorem pushUndo_fUndo {d : PWDocument} (hu : d.fInternalEdit = false) (s : UndoStep) :
    ∃ rest, (d.pushUndo s).fUndo = s :: rest := by
  unfold PWDocument.pushUndo
  rw [hu, if_neg Bool.false_ne_true]
  dsimp only
  split
  · rename_i h
    cases hd : d.fUndo with
    | nil =>
      rw [hd] at h
      simp at h
    | cons x xs => exact ⟨(x :: xs).dropLast, rfl⟩
  · exact ⟨d.fUndo, rfl⟩

theorem Holds.paraFormatAt_remove {ps ps' : List Para} {cs : List Cell} {offset length : Nat} (h : Holds ps cs)
    (h' : Holds ps' (cut (offset + 1) (offset + 1 + length) cs)) (hr : offset + length ≤ Writer.docLength ps) :
    Writer.paraFormatAt ps' offset = Writer.paraFormatAt ps offset := by
  have hL := h.length
  have hL' := h'.length
  rw [length_cut (by omega) (by omega)] at hL'
  rw [h.paraFormatAt, h'.paraFormatAt, Nat.min_eq_left (by omega), Nat.min_eq_left (by omega), cut,
    take_left' (by rw [length_take]; omega)]

/-- **A removal and its undoing** leave the text and the formats, but for the breaks of the range, and put the saved images
over the slots the removal left. -/
theorem remove_undo {d : PWDocument} (h : Ready d) {offset length : Nat} (h0 : 0 < length)
    (hr : offset + length ≤ docLength d.fParas) :
    ∃ ps d', (d.remove offset length).undo = some d' ∧ Ready d' ∧
      d'.fParas = placeImages (removeParas d.fDefault d.fParas offset length).2 ps ∧
      Holds ps (mapSpan (offset + 1) (offset + 1 + length) (Cell.reborn (paraFormatAt d.fParas offset)) (cells d.fParas)) ∧
      slots ps = insertAt offset (List.replicate length none) (slots (removeParas d.fDefault d.fParas offset length).1) := by
  have hh := h.holds
  have hrem := hh.removal hr
  have hcut := hh.removeParas d.fDefault hr
  have hL := hh.length
  have hLcut := hcut.length
  rw [length_cut (by omega) (by omega)] at hLcut
  rw [remove_eq h0 hr]
  obtain ⟨rest, hrest⟩ := pushUndo_fUndo (d := { d with fParas := (removeParas d.fDefault d.fParas offset length).1 })
    h.user (d.removal offset length)
  have hps : ({ d with fParas := (removeParas d.fDefault d.fParas offset length).1 }.pushUndo
      (d.removal offset length)).fParas = (removeParas d.fDefault d.fParas offset length).1 := pushUndo_fParas _ _
  generalize { d with fParas := (removeParas d.fDefault d.fParas offset length).1 }.pushUndo (d.removal offset length) = d₁
    at hrest hps ⊢
  have hcut₁ : Holds (d₁.undoing (d.removal offset length) rest).fParas (cut (offset + 1) (offset + 1 + length)
      (cells d.fParas)) := by
    show Holds d₁.fParas _
    rw [hps]
    exact hcut
  have ho₁ : (d.removal offset length).offset ≤ docLength (d₁.undoing (d.removal offset length) rest).fParas := by
    show offset ≤ docLength d₁.fParas
    rw [hps]
    omega
  obtain ⟨d₂, hd₂, hsh, hback⟩ := hrem.putBack (undoing_internal d₁ _ rest) hcut₁ ho₁
  have hslots := slots_putBack hcut₁.ne_nil ho₁ hd₂
  have hF : paraFormatAt (d₁.undoing (d.removal offset length) rest).fParas (d.removal offset length).offset =
      paraFormatAt d.fParas offset := hh.paraFormatAt_remove hcut₁ hr
  have hmap := insertAt_map_cut (i := offset + 1) (j := offset + 1 + length) (l := cells d.fParas) (by omega) (by omega)
    (Cell.reborn (paraFormatAt d.fParas offset))
  rw [Nat.add_sub_cancel_left] at hmap
  rw [hF] at hback
  have hback : Holds d₂.fParas (mapSpan (offset + 1) (offset + 1 + length)
      (Cell.reborn (paraFormatAt d.fParas offset)) (cells d.fParas)) := by
    rw [← hmap]
    exact hback
  have hplaced := hback.placeImages (d.removal offset length).images
  have hstep : (d₁.undoing (d.removal offset length) rest).undoStep (d.removal offset length) =
      some { d₂ with fParas := placeImages (d.removal offset length).images d₂.fParas } := by
    rw [undoStep_remove rfl, hd₂, Option.map_some]
  refine ⟨d₂.fParas, _, undo_eq hrest hstep hsh.undo, ⟨hplaced.tiled, hplaced.ne_nil, rfl⟩, rfl, hback, ?_⟩
  have htl : (d.removal offset length).text.length = length := by
    rw [hrem.text, length_map, length_take, length_drop]
    omega
  rw [hslots, htl]
  show insertAt offset _ (slots d₁.fParas) = _
  rw [hps]

/-! ## The formats of the paragraphs -/

def Cell.opens : Cell → Option PWParaFormat
  | .brk F  => some F
  | .ch _ _ => none

theorem opens_chars {cs : List Cell} (h : ∀ c ∈ cs, ∃ b g, c = .ch b g) : cs.filterMap Cell.opens = [] := by
  rw [filterMap_eq_nil_iff]
  intro c hc
  obtain ⟨b, g, rfl⟩ := h c hc
  rfl

theorem opens_cells : ∀ ps : List Para, (cells ps).filterMap Cell.opens = ps.map (·.format)
  | [] => rfl
  | p :: ps => by
    rw [cells_cons, filterMap_append, opens_cells ps, Para.cells, filterMap_cons,
      opens_chars (fun c hc => mem_zipWith_ch hc)]
    rfl

theorem Tiled.opens_take {ps : List Para} (h : Tiled ps) (hne : ps ≠ []) (offset : Nat) :
    ((cells ps).take (min offset (Writer.docLength ps) + 1)).filterMap Cell.opens =
      (ps.map (·.format)).take ((locate ps offset).1 + 1) := by
  obtain ⟨pre, p, post, k, rfl, hloc, hk, hmin⟩ := locate_spec hne offset
  obtain ⟨hpre, hpp⟩ := tiled_append.1 h
  have hpl := (tiled_cons.1 hpp).1.length_cells
  rw [hloc, ← hmin, cells_append, cells_cons, Nat.add_assoc, ← hpre.length_cells, take_length_add_append,
    take_append_of_le_length (by omega), Para.cells, take_succ_cons, filterMap_append, opens_cells,
    filterMap_cons, opens_chars (fun c hc => mem_zipWith_ch (mem_of_mem_take hc)), map_append,
    map_cons, show pre.length + 1 = (pre.map (fun p : Para => p.format)).length + 1 by rw [length_map],
    take_length_add_append, take_succ_cons, take_zero]
  rfl

theorem opens_reborn (F : PWParaFormat) : ∀ {cs : List Cell}, (∀ b f, Cell.ch b f ∈ cs → b ≠ newline) →
    (cs.map (Cell.reborn F)).filterMap Cell.opens = (cs.filterMap Cell.opens).map (fun _ => F)
  | [], _ => rfl
  | c :: cs, h => by
    have ih := opens_reborn F (fun b f hm => h b f (mem_cons_of_mem c hm))
    rw [map_cons, filterMap_cons, filterMap_cons, ih]
    cases c with
    | brk G => rfl
    | ch b f =>
      rw [Cell.reborn, if_neg (h b f mem_cons_self)]
      rfl

theorem mem_cells {ps : List Para} {b : Byte} {f : PWCharFormat} (h : Cell.ch b f ∈ cells ps) : ∃ p ∈ ps, b ∈ p.text := by
  obtain ⟨p, hp, hc⟩ := mem_flatMap.1 h
  refine ⟨p, hp, ?_⟩
  rcases mem_cons.1 hc with hc | hc
  · cases hc
  obtain ⟨i, hi⟩ := mem_iff_getElem?.1 hc
  obtain ⟨x, g, hx, -, he⟩ := getElem?_zipWith_eq_some.1 hi
  cases he
  exact mem_of_getElem? hx

theorem locate_lt {ps : List Para} (hne : ps ≠ []) (offset : Nat) : (locate ps offset).1 < ps.length := by
  obtain ⟨pre, p, post, k, rfl, hloc, -, -⟩ := locate_spec hne offset
  rw [hloc, length_append, length_cons]
  omega

def centeredSecond : List Call :=
  [.edit (.insert 0 [byteA, newline, byteB] none), .edit (.setParaFormat 1 { alignment := .center })]

theorem marks_eq {ps : List Para} (hne : ps ≠ []) {offset : Nat} (ho : offset < docLength ps) :
    (marks ps)[offset]? = some (!isSeparatorOffset ps offset) := by
  obtain ⟨pre, p, post, k, rfl, hloc, hk, hmin⟩ := locate_spec hne offset
  have hL := docLength_add_one hne
  rw [byteSpan_append, byteSpan_cons] at hL
  rw [isSeparatorOffset, hloc, paraAt_mid, show offset = byteSpan pre + k by omega, marks_behind, marks_cons,
    getElem?_append_left (by rw [Para.length_marks]; omega), Para.marks_getElem?]
  dsimp only
  by_cases hlt : k < p.text.length
  · rw [if_pos hlt, decide_eq_false (by omega)]
    rfl
  have hpost : post ≠ [] := by
    rintro rfl
    rw [byteSpan_nil] at hL
    omega
  have := length_pos_iff.2 hpost
  rw [if_neg hlt, if_pos (by omega), decide_eq_true ⟨by omega, by rw [length_append, length_cons]; omega⟩]
  rfl

theorem marks_eq_true {ps : List Para} (hne : ps ≠ []) {offset : Nat} (ho : offset < docLength ps) :
    (marks ps)[offset]? = some true ↔ isSeparatorOffset ps offset = false := by
  rw [marks_eq hne ho, Option.some.injEq, Bool.not_eq_true']

theorem exists_last (f : Nat → Option PWImage) {b g : Nat} (hg : g < b) (hf : f g ≠ none) :
    ∃ G, g ≤ G ∧ G < b ∧ f G ≠ none ∧ ∀ h, G < h → h < b → f h = none := by
  have hgb : g ≤ b - 1 := by omega
  have hle := Nat.findGreatest_le (P := (f · ≠ none)) (b - 1)
  refine ⟨_, Nat.le_findGreatest hgb hf, by omega, Nat.findGreatest_spec (P := (f · ≠ none)) hgb hf, fun h h1 h2 => ?_⟩
  exact not_not.1 (Nat.findGreatest_is_greatest h1 (by omega))

/-- No image of the range stands at or behind a separator of it, but for one on the separator the range begins with, if
the range holds text. -/
def PWDocument.ImagesAhead (d : PWDocument) (offset length : Nat) : Prop :=
  ∀ s g, offset ≤ s → s ≤ g → g < offset + length → isSeparatorOffset d.fParas s = true → d.imageAt g ≠ none →
    g = offset ∧ ∃ h, offset ≤ h ∧ h < offset + length ∧ isSeparatorOffset d.fParas h = false

section
variable {d : PWDocument} {offset length e : Nat} {saved : ImageTable} (hne : d.fParas ≠ [])
  (hr : offset + length ≤ docLength d.fParas) (hs : SavedImages d.fParas offset (offset + length) e saved)
include hne hr hs

theorem SavedImages.le_separator {s : Nat} (h1 : offset ≤ s) (h2 : s < offset + length)
    (hsep : isSeparatorOffset d.fParas s = true) : e ≤ s := by
  rcases Nat.lt_or_ge s e with hlt | hge
  · have := hs.text s h1 hlt
    rw [marks_eq hne (by omega), hsep] at this
    cases this
  · exact hge

theorem SavedImages.separator (h : e < offset + length) : isSeparatorOffset d.fParas e = true := by
  have := hs.stop
  rw [marks_eq hne (by omega), Option.some.injEq, Bool.not_eq_false'] at this
  exact this

/-- An image at or behind the first separator stands on it, the range begins there and holds text. -/
theorem SavedImages.ahead (h : d.ImagesAhead offset length) {g : Nat} (h1 : e ≤ g) (h2 : g < offset + length)
    (hg : d.imageAt g ≠ none) : g = offset ∧ e = offset ∧
      ∃ h, offset ≤ h ∧ h < offset + length ∧ (marks d.fParas)[h]? = some true := by
  have hge := hs.ge
  obtain ⟨hgo, j, hj1, hj2, hj3⟩ := h e g hge h1 h2 (hs.separator hne hr (by omega)) hg
  exact ⟨hgo, by omega, j, hj1, hj2, (marks_eq_true hne (by omega)).2 hj3⟩

theorem SavedImages.backed (h : d.ImagesAhead offset length) : Backed d.fParas offset (offset + length) := by
  intro g img h1 h2 himg
  rcases Nat.lt_or_ge g e with hlt | hge
  · exact ⟨g, Nat.le_refl g, h2, hs.text g h1 hlt⟩
  · rw [imageAt_of_le hne (by omega), Option.some.injEq] at himg
    obtain ⟨hgo, -, j, hj1, hj2, hj3⟩ := hs.ahead hne hr h hge h2 (by rw [himg]; exact Option.some_ne_none img)
    exact ⟨j, by omega, hj2, hj3⟩

theorem SavedImages.get?_eq (h : d.ImagesAhead offset length) {j : Nat} (hj : j ≤ docLength d.fParas) :
    saved.get? (j : Int) = if offset ≤ j ∧ j < offset + length then d.imageAt j else none := by
  have hno : ∀ img, saved.get? (j : Int) = some img → offset ≤ j ∧ j < offset + length ∧ d.imageAt j = some img := by
    intro img hget
    obtain ⟨g, hg⟩ := hs.sound j img hget
    have himg := hg.image
    have hgt := hg.lt
    rw [imageAt_of_le hne (by omega), Option.some.injEq] at himg
    -- behind the first separator there is no image, so the key is the offset
    have hjg : j = g := by
      rcases Nat.lt_trichotomy g e with hlt | rfl | hgt
      · have := hg.before hlt
        omega
      · have := hg.atEnd rfl
        obtain ⟨hgo, -⟩ := hs.ahead hne hr h (Nat.le_refl g) hg.lt (by rw [himg]; exact Option.some_ne_none img)
        omega
      · obtain ⟨hgo, heo, -⟩ := hs.ahead hne hr h (Nat.le_of_lt hgt) hg.lt (by rw [himg]; exact Option.some_ne_none img)
        omega
    subst hjg
    exact ⟨hg.ge, hg.lt, himg⟩
  cases himg : d.imageAt j with
  | none =>
    rw [ite_self]
    cases hget : saved.get? (j : Int) with
    | none => rfl
    | some img =>
      have := (hno img hget).2.2
      rw [himg] at this
      cases this
  | some img =>
    split
    · rename_i hin
      have hslot := (imageAt_of_le hne hj).trans (congrArg some himg)
      have hbehind : ∀ h' v, e ≤ h' → h' < offset + length → (slots d.fParas)[h']? = some (some v) → h' = offset ∧
          e = offset := fun h' v h1 h2 hv => by
        rw [imageAt_of_le hne (by omega), Option.some.injEq] at hv
        obtain ⟨h3, h4, -⟩ := hs.ahead hne hr h h1 h2 (by rw [hv]; exact Option.some_ne_none v)
        exact ⟨h3, h4⟩
      rcases Nat.lt_or_ge j e with hlt | hge
      · refine hs.hole j img hin.1 hlt hin.2 hslot (fun h' v h1 h2 hv => ?_)
        obtain ⟨h3, h4⟩ := hbehind h' v h1 h2 hv
        omega
      obtain ⟨hjo, heo, htext⟩ := hs.ahead hne hr h hge hin.2 (by rw [himg]; exact Option.some_ne_none img)
      rw [hjo] at hslot ⊢
      refine hs.first img hslot (fun h' v h1 h2 hv => ?_) htext
      obtain ⟨h3, -⟩ := hbehind h' v (by omega) h2 hv
      omega
    · rename_i hin
      cases hget : saved.get? (j : Int) with
      | none => rfl
      | some v =>
        obtain ⟨h1, h2, -⟩ := hno v hget
        exact absurd ⟨h1, h2⟩ hin

/-- If every image of the range is saved at its offset, none stands behind the separators. -/
theorem SavedImages.ahead_of (h : ∀ g, e ≤ g → g < offset + length → ∀ img, d.imageAt g = some img →
    saved.get? (g : Int) = some img) : d.ImagesAhead offset length := by
  intro s g h1 h2 h3 hsep hg
  have hes := hs.le_separator hne hr h1 (by omega) hsep
  have hge := hs.ge
  obtain ⟨G, hgG, hGlt, hGimg, hlast⟩ := exists_last d.imageAt h3 hg
  have hGe : e ≤ G := by omega
  obtain ⟨img, himg⟩ := Option.ne_none_iff_exists'.1 hGimg
  obtain ⟨from', hf⟩ := hs.sound G img (h G hGe hGlt img himg)
  have hfimg := hf.image
  have hflt := hf.lt
  rw [imageAt_of_le hne (by omega), Option.some.injEq] at hfimg
  rcases Nat.lt_trichotomy from' e with hlt | rfl | hgt
  · have := hf.before hlt
    omega
  · have := hf.atEnd rfl
    obtain ⟨j, hj1, -, hj2, hj3⟩ := hf.text
    exact ⟨by omega, j, hj1, hj2, (marks_eq_true hne (by omega)).1 hj3⟩
  · have := hf.behind hgt
    rw [hlast from' (by omega) hflt] at hfimg
    cases hfimg

end

theorem imageAt_clip {d : PWDocument} (hne : d.fParas ≠ []) (g : Nat) :
    d.imageAt g = d.imageAt (min g (docLength d.fParas)) := by
  rw [PWDocument.imageAt_eq hne, PWDocument.imageAt_eq hne, Nat.min_eq_left (Nat.min_le_right g _)]

/-- The images after a removal and its undoing: in the range the saved ones, and outside the old ones if the range was
backed. -/
theorem remove_undo_imageAt {d : PWDocument} (h : Ready d) (hk : ∀ p ∈ d.fParas, p.Keyed) {offset length e : Nat}
    (h0 : 0 < length) (hr : offset + length ≤ docLength d.fParas) {saved : ImageTable}
    (hsaved : (removeParas d.fDefault d.fParas offset length).2 = saved)
    (hs : SavedImages d.fParas offset (offset + length) e saved) :
    ∃ d', (d.remove offset length).undo = some d' ∧ Ready d' ∧ glyphs d'.fParas = glyphs d.fParas ∧
      (∀ j, offset ≤ j → j < offset + length → d'.imageAt j = saved.get? (j : Int)) ∧
      (Backed d.fParas offset (offset + length) → ∀ j, j ≤ docLength d.fParas →
        ¬ (offset ≤ j ∧ j < offset + length) → d'.imageAt j = (saved.get? (j : Int)).or (d.imageAt j)) := by
  obtain ⟨ps, d', hd', h', hps, hback, hslots⟩ := remove_undo h h0 hr
  rw [hsaved] at hps
  have hglyphs : glyphs d'.fParas = glyphs d.fParas := by
    rw [hps, glyphs, (hback.placeImages saved).cells]
    exact map_mapSpan_of_eq (Cell.glyph_reborn _) _ _ _
  have hL' := h'.length_glyphs
  rw [hglyphs, h.length_glyphs] at hL'
  have hL := hback.length
  have hLs := congrArg List.length hslots
  rw [length_mapSpan, h.holds.length] at hL
  rw [length_insertAt, length_replicate, length_slots, ← docLength_add_one hback.ne_nil] at hLs
  have hkeys : ∀ g v, saved.get? g = some v → 0 ≤ g ∧ g ≤ docLength ps := fun g v hg => by
    obtain ⟨from', hf⟩ := hs.sound g v hg
    have h1 := hf.key
    have h2 := hf.lt
    have h3 : g ≤ from' := by
      rcases Nat.lt_trichotomy from' e with hlt | rfl | hgt
      · have := hf.before hlt
        omega
      · have := hf.atEnd rfl
        have := hf.ge
        omega
      · have := hf.behind hgt
        omega
    omega
  have himg : ∀ j, j ≤ docLength d.fParas →
      some (d'.imageAt j) = ((slots ps)[j]?).map ((saved.get? (j : Int)).or ·) := fun j hj => by
    rw [← imageAt_of_le h'.ne_nil (by omega), hps, slots_placeImages hback.ne_nil saved hkeys]
  refine ⟨d', hd', h', hglyphs, fun j h1 h2 => ?_, fun hb j hj hout => ?_⟩
  · have := himg j (by omega)
    rw [hslots, insertAt_getElem? (by omega), if_neg (by omega), length_replicate, if_pos h2,
      getElem?_replicate, if_pos (by omega), Option.map_some, Option.or_none] at this
    exact Option.some.inj this
  · have hcut := slots_removeParas h.ne_nil hk d.fDefault hr hb
    have hrep : (slots ps)[j]? = (slots d.fParas)[j]? := by
      rw [hslots, hcut, insertAt_getElem? (by
        rw [length_cut (by omega) (by rw [length_slots, ← docLength_add_one h.ne_nil]; omega), length_slots,
          ← docLength_add_one h.ne_nil]
        omega), length_replicate]
      have hle : offset ≤ (slots d.fParas).length := by
        rw [length_slots, ← docLength_add_one h.ne_nil]
        omega
      by_cases hj1 : j < offset
      · rw [if_pos hj1, cut_getElem? (by omega) hle, if_pos hj1]
      · rw [if_neg hj1, if_neg (by omega), cut_getElem? (by omega) hle, if_neg (by omega)]
        congr 1
        omega
    have := himg j hj
    rw [hrep, imageAt_of_le h.ne_nil hj, Option.map_some] at this
    exact Option.some.inj this

/-- **Undoing a removal gives the text back, and every image at its offset exactly when none in the range stood at or
behind a separator there**, the separator the range begins with apart. -/
theorem remove_undo_images {plain : FontFamily} {d : PWDocument} (h : Reachable plain d) {offset length : Nat}
    (h0 : 0 < length) (ho : offset < docLength d.fParas) :
    ∃ d', (d.remove offset length).undo = some d' ∧ plainText d'.fParas = plainText d.fParas ∧
      ((∀ g img, d.imageAt g = some img → d'.imageAt g = some img) ↔
        d.ImagesAhead offset (clipLength d.fParas offset length)) := by
  have hready : Ready d := ⟨h.tiled, h.ne_nil, h.user⟩
  obtain ⟨hc0, hcr⟩ := clipLength_pos h0 ho
  rw [remove_clip h0 ho]
  generalize clipLength d.fParas offset length = l at hc0 hcr
  obtain ⟨e, hs⟩ := savedImages_removeParas h.ne_nil h.keyed d.fDefault hcr
  obtain ⟨d', hd', h', hg, hin, hout⟩ := remove_undo_imageAt hready h.keyed hc0 hcr rfl hs
  refine ⟨d', hd', hready.plainText h' hg, fun hall => hs.ahead_of h.ne_nil hcr (fun g h1 h2 img himg => ?_),
    fun hahead g img himg => ?_⟩
  · rw [← hin g (Nat.le_trans hs.ge h1) h2]
    exact hall g img himg
  · have hL := h'.length_glyphs
    rw [hg, hready.length_glyphs] at hL
    rw [imageAt_clip h'.ne_nil, show docLength d'.fParas = docLength d.fParas by omega]
    rw [imageAt_clip h.ne_nil] at himg
    have hj := Nat.min_le_right g (docLength d.fParas)
    generalize min g (docLength d.fParas) = j at himg hj
    have hget := hs.get?_eq h.ne_nil hcr hahead hj
    by_cases hr : offset ≤ j ∧ j < offset + l
    · rw [hin j hr.1 hr.2, hget, if_pos hr]
      exact himg
    · rw [hout (hs.backed h.ne_nil hcr hahead) j hj hr, hget, if_neg hr, Option.none_or]
      exact himg

def imageSecond : List Call :=
  [.edit (.insert 0 [byteA, newline] none), .edit (.insertImage 2 (some ⟨1, 1, [0, 0, 0, 255]⟩) 12 12)]

/-- **An image behind a removed separator comes back on the separator.** -/
theorem separator_undo_moves_image : ∃ d d' img, Reachable noFamily d ∧ (d.remove 1 4).undo = some d' ∧
    plainText d'.fParas = plainText d.fParas ∧ d.imageAt 2 = some img ∧ d'.imageAt 2 = none ∧ d'.imageAt 1 = some img :=
  ⟨_, _, ⟨some ⟨1, 1, [0, 0, 0, 255]⟩, 12, 12⟩, Calls.of_callAll imageSecond rfl, rfl, by decide, by decide, by decide,
    by decide⟩

theorem remove_undo_images_imageSecond : ∃ d d', Reachable noFamily d ∧ (d.remove 1 4).undo = some d' ∧
    ((∀ g img, d.imageAt g = some img → d'.imageAt g = some img) ↔ d.ImagesAhead 1 (clipLength d.fParas 1 4)) := by
  have h : Reachable noFamily _ := Calls.of_callAll imageSecond rfl
  have hundo := remove_undo_images h (show 0 < 4 by decide) (show 1 < docLength _ by decide)
  obtain ⟨d', hd', -, hiff⟩ := hundo
  exact ⟨_, d', h, hd', hiff⟩

end Writer
end Prose
