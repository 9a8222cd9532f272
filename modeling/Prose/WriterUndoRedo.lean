import Prose.WriterTop
/-!
# WriterUndoRedo — one step undone and done again

After edits alone, `Undo` and then `Redo` answer.  They give the paragraphs back for a removal and for character formats.  A
paragraph's format stays as it was before the step, and a text is typed again: in the format of its neighbourhood, without
its images (`undo_redo_iff`).
-/
namespace Prose
namespace Writer

open Splice List
open Relation (ReflTransGen)

/-! ## Documents of the same paragraphs -/

/-- The same text, formats, paragraph format and images, paragraph by paragraph. -/
def SameParas : List Para → List Para → Prop :=
  List.Forall₂ (fun p q => q.text = p.text ∧ formats q.runs = formats p.runs ∧ q.format = p.format ∧ q.images = p.images)

theorem zipWith_ch_inj {t t' : List Byte} {fs fs' : List PWCharFormat} (hl : t.length = fs.length) (hl' : t'.length = fs'.length)
    (h : List.zipWith Cell.ch t fs = List.zipWith Cell.ch t' fs') : t = t' ∧ fs = fs' := by
  have hzip : t.zip fs = t'.zip fs' := by
    rw [← map_uncurry_zip_eq_zipWith, ← map_uncurry_zip_eq_zipWith] at h
    refine map_injective_iff.2 (fun x y hxy => ?_) h
    exact Prod.ext (Cell.ch.inj hxy).1 (Cell.ch.inj hxy).2
  have h1 := congrArg (map Prod.fst) hzip
  have h2 := congrArg (map Prod.snd) hzip
  rw [map_fst_zip hl.le, map_fst_zip hl'.le] at h1
  rw [map_snd_zip hl.ge, map_snd_zip hl'.ge] at h2
  exact ⟨h1, h2⟩

theorem chars_append_inj {X Y : List Cell} (hX : ∀ b f l, X ≠ .ch b f :: l) (hY : ∀ b f l, Y ≠ .ch b f :: l) :
    ∀ {A B : List Cell}, (∀ c ∈ A, ∃ b f, c = .ch b f) → (∀ c ∈ B, ∃ b f, c = .ch b f) → A ++ X = B ++ Y →
      A = B ∧ X = Y
  | [], [], _, _, h => ⟨rfl, h⟩
  | [], c :: B, _, hB, h => by
    obtain ⟨b, f, rfl⟩ := hB c mem_cons_self
    exact absurd h (hX b f (B ++ Y))
  | c :: A, [], hA, _, h => by
    obtain ⟨b, f, rfl⟩ := hA c mem_cons_self
    exact absurd h.symm (hY b f (A ++ X))
  | c :: A, c' :: B, hA, hB, h => by
    rw [cons_append, cons_append, List.cons.injEq] at h
    obtain ⟨rfl, h⟩ := h
    obtain ⟨hAB, hXY⟩ := chars_append_inj hX hY (fun x hx => hA x (mem_cons_of_mem c hx))
      (fun x hx => hB x (mem_cons_of_mem c hx)) h
    exact ⟨congrArg (c :: ·) hAB, hXY⟩

theorem cells_ne_ch : ∀ (ps : List Para) (b : Byte) (f : PWCharFormat) (l : List Cell), cells ps ≠ .ch b f :: l
  | [], _, _, _, h => by cases h
  | _ :: _, _, _, _, h => by cases h

theorem Para.Keyed.images_eq {p q : Para} (hp : p.Keyed) (hq : q.Keyed) (hlen : q.text.length = p.text.length)
    (h : q.slots = p.slots) : q.images = p.images := by
  apply SortedMap.ext_get?
  intro k
  by_cases hk : 0 ≤ k ∧ k ≤ p.text.length
  · obtain ⟨j, rfl⟩ := Int.eq_ofNat_of_zero_le hk.1
    have hq' := Para.slots_of_le (p := q) (j := j) (by omega)
    rw [h, Para.slots_of_le (by omega)] at hq'
    exact (Option.some.inj hq').symm
  have hnone : ∀ {r : Para}, r.Keyed → r.text.length = p.text.length → r.images.get? k = none := by
    intro r hr hl
    cases hv : r.images.get? k with
    | none => rfl
    | some v =>
      have := hr k v hv
      rw [hl] at this
      exact absurd this hk
  rw [hnone hp rfl, hnone hq hlen]

/-- **The cells and the slots are the paragraphs.** -/
theorem sameParas_iff : ∀ {ps qs : List Para}, Tiled ps → Tiled qs → (∀ p ∈ ps, p.Keyed) → (∀ q ∈ qs, q.Keyed) →
    (SameParas ps qs ↔ cells qs = cells ps ∧ slots qs = slots ps)
  | [], [], _, _, _, _ => ⟨fun _ => ⟨rfl, rfl⟩, fun _ => List.Forall₂.nil⟩
  | [], _ :: _, _, _, _, _ => ⟨fun h => (nomatch h), fun h => (nomatch h.1)⟩
  | _ :: _, [], _, _, _, _ => ⟨fun h => (nomatch h), fun h => (nomatch h.1)⟩
  | p :: ps, q :: qs, ht, ht', hk, hk' => by
    obtain ⟨hp, hps⟩ := tiled_cons.1 ht
    obtain ⟨hq, hqs⟩ := tiled_cons.1 ht'
    have ih := sameParas_iff hps hqs (fun r hr => hk r (mem_cons_of_mem p hr))
      (fun r hr => hk' r (mem_cons_of_mem q hr))
    unfold SameParas at ih ⊢
    rw [List.forall₂_cons, ih, cells_cons, cells_cons, slots_cons, slots_cons]
    constructor
    · rintro ⟨⟨h1, h2, h3, h4⟩, h5, h6⟩
      rw [h5, h6, Para.cells, Para.cells, Para.slots, Para.slots, h1, h2, h3, h4]
      exact ⟨rfl, rfl⟩
    · rintro ⟨hcells, hslots⟩
      rw [Para.cells, Para.cells, cons_append, cons_append, List.cons.injEq, Cell.brk.injEq] at hcells
      obtain ⟨hF, hcells⟩ := hcells
      obtain ⟨hchars, hrest⟩ := chars_append_inj (cells_ne_ch qs) (cells_ne_ch ps) (fun _ => mem_zipWith_ch)
        (fun _ => mem_zipWith_ch) hcells
      obtain ⟨htext, hfmt⟩ := zipWith_ch_inj hq.length_formats.symm hp.length_formats.symm hchars
      have hlen := congrArg List.length htext
      obtain ⟨hsl, hslots⟩ := append_inj hslots (by rw [Para.length_slots, Para.length_slots, hlen])
      exact ⟨⟨htext, hfmt, hF, (hk p mem_cons_self).images_eq (hk' q mem_cons_self) hlen hsl⟩, hrest, hslots⟩

/-! ## What a redo gives back -/

/-- The format a text takes when it is typed again at `offset`, the `length` bytes there gone. -/
def PWDocument.retypeFormat (d : PWDocument) (offset length : Nat) : PWCharFormat :=
  if (locate d.fParas offset).2 > 0 then d.formatAt (offset - 1)
  else if (locate d.fParas offset).2 + length < (paraAt d.fParas (locate d.fParas offset).1).text.length then
    d.formatAt (offset + length)
  else d.fDefault

/-- What undoing the step and doing it again gives back is what was there. -/
def PWDocument.StepRedoable (d : PWDocument) (s : UndoStep) : Prop :=
  match s.kind with
  | .insert => s.offset + s.length ≤ docLength d.fParas ∧ ∀ g, s.offset ≤ g → g < s.offset + s.length →
      d.imageAt g = none ∧ (newline ∉ s.text → d.formatAt g = d.retypeFormat s.offset s.length)
  | .remove => True
  | .format => True
  | .paraformat => s.paraFormat = (paraAt d.fParas s.offset).format

def PWDocument.Redoable (d : PWDocument) : Prop := ∀ s rest, d.fUndo = s :: rest → d.StepRedoable s

/-- The document `Redo` works on, right after an `Undo`. -/
def PWDocument.redoing (d : PWDocument) (rest : List UndoStep) : PWDocument :=
  { d with fRedo := rest, fCoalesce := false, fInternalEdit := true, fModified := true }

theorem redoing_internal (d : PWDocument) (rest : List UndoStep) : (d.redoing rest).Internal := ⟨rfl, rfl⟩

theorem Sound.undoRedo {d d₁ d₂ : PWDocument} {s s' t : UndoStep} {rest : List UndoStep} (hs : Sound d)
    (h : d.fUndo = s :: rest) (hundo : (d.undoing s rest).undoStep s = some d₁) (hu : d₁.fUndo = rest)
    (hr : d₁.fRedo = s' :: d.fRedo) (hredo : (d₁.redoing d.fRedo).redoStep s' = some (d₂, t))
    (hiff : cells d₂.fParas = cells d.fParas ∧ slots d₂.fParas = slots d.fParas ↔ d.StepRedoable s) :
    ∃ e₁ e₂, d.undo = some e₁ ∧ e₁.redo = some e₂ ∧ (SameParas d.fParas e₂.fParas ↔ d.StepRedoable s) := by
  have h1 := undo_eq h hundo hu
  have h2 : PWDocument.redo { d₁ with fCoalesce := true, fInternalEdit := false, fModified := true } = some
      { d₂ with fCoalesce := true, fInternalEdit := false, fUndo := t :: d₂.fUndo.drop (d₂.fUndo.length - d₁.fUndo.length)
                fModified := true } := by
    unfold PWDocument.redo
    dsimp only
    rw [hr]
    dsimp only
    rw [PWDocument.redoing] at hredo
    rw [hredo]
    rfl
  have hevol := (undo_evolves h1).trans (redo_evolves h2)
  exact ⟨_, _, h1, h2, (sameParas_iff hs.ready.tiled (paraInv_tiled.evolves hevol hs.ready.tiled) hs.keyed
    (paraInv_keyed.evolves hevol hs.keyed)).trans hiff⟩

/-! ## One kind of step after the other -/

theorem Cell.adopt_adopt (m c : Cell) : (m.adopt c).adopt m = m := by cases m <;> cases c <;> rfl

theorem zipWith_adopt_adopt {M span : List Cell} (h : M.length = span.length) :
    List.zipWith Cell.adopt (List.zipWith Cell.adopt M span) M = M := by
  induction M generalizing span with
  | nil => rw [zipWith_nil_right]
  | cons m M ih =>
    cases span with
    | nil => cases h
    | cons c span => rw [zipWith_cons_cons, zipWith_cons_cons, ih (Nat.succ.inj h), m.adopt_adopt c]

theorem slots_undoStep_format {d d' : PWDocument} {s : UndoStep} (hk : s.kind = .format) (h : d.undoStep s = some d') :
    slots d'.fParas = slots d.fParas := by
  unfold PWDocument.undoStep at h
  rw [hk] at h
  obtain ⟨cur, -, h⟩ := Option.bind_eq_some_iff.1 h
  have hslots := slots_applyRuns s.offset s.runs h
  exact hslots

theorem Sound.redo_format {d : PWDocument} (hs : Sound d) {s : UndoStep} {rest : List UndoStep} (h : d.fUndo = s :: rest)
    {A M C span : List Cell} (hcells : cells d.fParas = A ++ M ++ C) (hA : A.length = s.offset + 1)
    (hr : RestyledAt s span M) :
    ∃ e₁ e₂, d.undo = some e₁ ∧ e₁.redo = some e₂ ∧ (SameParas d.fParas e₂.fParas ↔ d.StepRedoable s) := by
  obtain ⟨cur, d₁, hcur, hd₁, hsh, hh⟩ := hr.undoStep (d := d.undoing s rest) (hcells ▸ hs.ready.holds) hA
    (undoing_internal d s rest)
  have hM := hr.same
  have hz : (List.zipWith Cell.adopt M span).length = M.length := by rw [length_zipWith, hM, Nat.min_self]
  have hr' : RestyledAt { s with runs := cur } M (List.zipWith Cell.adopt M span) :=
    ⟨hr.kind, hr.length.trans hM.symm, hz, hcur⟩
  have hh' : Holds (d₁.redoing d.fRedo).fParas _ := hh
  obtain ⟨cur', hcur', -⟩ := hr'.captured hh' hA
  obtain ⟨d₂, hd₂, -, hh₂⟩ := hr'.applied hh' hA (redoing_internal d₁ d.fRedo)
  rw [zipWith_adopt_adopt hM, ← hcells] at hh₂
  have hslots₁ : slots d₁.fParas = slots d.fParas := slots_undoStep_format (d := d.undoing s rest) hr.kind hd₁
  have hslots : slots d₂.fParas = slots d.fParas := (slots_applyRuns s.offset cur hd₂).trans hslots₁
  have hredo : (d₁.redoing d.fRedo).redoStep { s with runs := cur } = some (d₂, { s with runs := cur' }) := by
    unfold PWDocument.redoStep
    rw [hr'.kind]
    dsimp only
    rw [hcur', Option.bind_some, hd₂]
    rfl
  refine hs.undoRedo h hd₁ hsh.undo hsh.redo hredo ?_
  unfold PWDocument.StepRedoable
  rw [hr.kind]
  exact iff_of_true ⟨hh₂.cells, hslots⟩ trivial

theorem redoStep_paraformat {s : UndoStep} (hk : s.kind = .paraformat) (d : PWDocument) :
    ∃ d' t, d.redoStep s = some (d', t) ∧ d'.fParas = setFormatParas d.fParas s.offset s.paraFormat := by
  unfold PWDocument.redoStep
  rw [hk]
  dsimp only
  split
  · exact ⟨_, _, rfl, rfl⟩
  · rename_i hlt
    exact ⟨d, s, rfl, (modify_eq_self (Nat.le_of_not_lt hlt)).symm⟩

theorem Sound.redo_paraformat {d : PWDocument} (hs : Sound d) {s : UndoStep} {rest : List UndoStep}
    (h : d.fUndo = s :: rest) (hk : s.kind = .paraformat) (hi : s.offset < d.fParas.length) :
    ∃ e₁ e₂, d.undo = some e₁ ∧ e₁.redo = some e₂ ∧ (SameParas d.fParas e₂.fParas ↔ d.StepRedoable s) := by
  obtain ⟨d₁, hd₁, hsh, hps₁⟩ := undoStep_paraformat hk (d.undoing s rest)
  obtain ⟨d₂, t, hd₂, hps₂⟩ := redoStep_paraformat hk (d₁.redoing d.fRedo)
  refine hs.undoRedo h hd₁ hsh.undo hsh.redo hd₂ ?_
  have hps : d₂.fParas = setFormatParas (setFormatParas d.fParas s.offset s.paraFormat) s.offset s.paraFormat := by
    rw [hps₂]
    exact congrArg (setFormatParas · s.offset s.paraFormat) hps₁
  obtain ⟨pre, p, post, hmid, hpre⟩ : ∃ pre p post, d.fParas = pre ++ p :: post ∧ pre.length = s.offset :=
    ⟨d.fParas.take s.offset, d.fParas[s.offset], d.fParas.drop (s.offset + 1), by simp, by simp; omega⟩
  have hcells : cells d₂.fParas = cells pre ++ (.brk s.paraFormat :: p.cells.tail) ++ cells post := by
    rw [hps, hmid, ← hpre, setFormatParas, setFormatParas, modify_mid, modify_mid, cells_append, cells_cons,
      append_assoc]
    rfl
  have hcells' : cells d.fParas = cells pre ++ (.brk p.format :: p.cells.tail) ++ cells post := by
    rw [hmid, cells_append, cells_cons, append_assoc]
    rfl
  have hslots : slots d₂.fParas = slots d.fParas := by rw [hps, slots_setFormatParas, slots_setFormatParas]
  unfold PWDocument.StepRedoable
  rw [hk]
  dsimp only
  rw [hcells, hcells', hslots, hmid, ← hpre, paraAt_mid]
  constructor
  · rintro ⟨hc, -⟩
    rw [append_left_inj, append_right_inj, List.cons.injEq, Cell.brk.injEq] at hc
    exact hc.1
  · intro hF
    rw [hF]
    exact ⟨rfl, rfl⟩

theorem slots_remove_placeImages {ps : List Para} {offset n : Nat} {sl : List (Option PWImage)} {images : ImageTable}
    (hne : ps ≠ []) (hk : ∀ p ∈ placeImages images ps, p.Keyed) (dflt : PWCharFormat) (ho : offset ≤ sl.length)
    (hL : docLength (placeImages images ps) = docLength ps) (hr : offset + n ≤ docLength ps)
    (hslots : slots ps = insertAt offset (List.replicate n none) sl)
    (himg : ∀ g img, images.get? g = some img → (offset : Int) ≤ g ∧ ∃ h : Nat, g ≤ h ∧ h < offset + n ∧
      (marks (placeImages images ps))[h]? = some true) :
    slots (removeParas dflt (placeImages images ps) offset n).1 = sl := by
  have hget := slots_placeImages hne images (fun g img hg => by
    obtain ⟨h1, h, h2, h3, -⟩ := himg g img hg
    omega)
  have hne' : placeImages images ps ≠ [] := by
    intro hn
    rw [hn, docLength, byteSpan_nil] at hL
    have hlen := congrArg List.length hslots
    rw [length_insertAt, length_replicate, length_slots, ← docLength_add_one hne] at hlen
    have := hget 0
    rw [hn, slots_nil, getElem?_nil, eq_comm, Option.map_eq_none_iff, List.getElem?_eq_none_iff, length_slots,
      ← docLength_add_one hne] at this
    omega
  have hout : ∀ j : Nat, j < offset ∨ offset + n ≤ j → images.get? (j : Int) = none := fun j hj => by
    cases hv : images.get? (j : Int) with
    | none => rfl
    | some v =>
      obtain ⟨h1, h, h2, h3, -⟩ := himg j v hv
      omega
  have hbacked : Backed (placeImages images ps) offset (offset + n) := fun g img h1 h2 hg => by
    rw [hget, hslots, insertAt_getElem? ho, if_neg (by omega), length_replicate, if_pos h2,
      getElem?_replicate, if_pos (by omega), Option.map_some, Option.or_none, Option.some.injEq] at hg
    obtain ⟨-, h, h3, h4, h5⟩ := himg g img hg
    exact ⟨h, by omega, h4, h5⟩
  rw [slots_removeParas hne' hk dflt (by omega) hbacked]
  have hcut := cut_insertAt ho (List.replicate n (none : Option PWImage))
  rw [length_replicate, ← hslots] at hcut
  refine Eq.trans (cut_congr (fun j hj => ?_)) hcut
  rw [hget, hout j hj]
  cases (slots ps)[j]? <;> rfl

theorem redoStep_remove {s : UndoStep} (hk : s.kind = .remove) (d : PWDocument) :
    d.redoStep s = some (d.remove s.offset s.length, s) := by
  unfold PWDocument.redoStep
  rw [hk]

theorem redoStep_insert {s : UndoStep} (hk : s.kind = .insert) (d : PWDocument) :
    d.redoStep s = some (d.insert s.offset s.text none, s) := by
  unfold PWDocument.redoStep
  rw [hk]

/-- A removed text comes back with its formats and goes again, and with it the images that came back on it. -/
theorem Sound.redo_remove {d : PWDocument} (hs : Sound d) {s : UndoStep} {rest : List UndoStep} (h : d.fUndo = s :: rest)
    {span : List Cell} (h0 : 0 < s.length) (ho : s.offset ≤ docLength d.fParas) (hr : RemovedAt s span)
    (hnl : ∀ b f, Cell.ch b f ∈ span → b ≠ newline) (himg : ∀ g img, s.images.get? g = some img →
      ∃ h : Nat, s.offset ≤ g ∧ g ≤ s.offset + h ∧ ∃ b f, span[h]? = some (.ch b f)) :
    ∃ e₁ e₂, d.undo = some e₁ ∧ e₁.redo = some e₂ ∧ (SameParas d.fParas e₂.fParas ↔ d.StepRedoable s) := by
  obtain ⟨d', hput, hsh, hh⟩ := hr.putBack (undoing_internal d s rest) hs.ready.holds ho
  have hL := hs.ready.holds.length
  have hl := hr.length
  have htext : s.text.length = s.length := by rw [hr.text, length_map, hl]
  have hslots := slots_putBack (d := d.undoing s rest) hs.ready.ne_nil ho hput
  have hd₁ : (d.undoing s rest).undoStep s = some { d' with fParas := placeImages s.images d'.fParas } := by
    rw [undoStep_remove hr.kind, hput]
    rfl
  have hkeyed : ∀ p ∈ placeImages s.images d'.fParas, p.Keyed :=
    paraInv_keyed.evolves (undoStep_evolves hd₁) hs.keyed
  have hlen := hh.length
  have hh' := hh.placeImages s.images
  have hlen' := hh'.length
  rw [length_insertAt, length_map, hL] at hlen hlen'
  rw [htext] at hslots
  have hin : s.offset + s.length ≤ docLength (placeImages s.images d'.fParas) := by
    have : docLength (d.undoing s rest).fParas = docLength d.fParas := rfl
    omega
  have hslots₂ := slots_remove_placeImages hh.ne_nil hkeyed d'.fDefault (by
    have := docLength_add_one hs.ready.ne_nil
    rw [length_slots]
    show s.offset ≤ byteSpan d.fParas
    omega) (by omega) (by omega) hslots (fun g img hg => by
      -- every image came back on or before a byte that came back
      obtain ⟨j, h1, h2, b, f, hj⟩ := himg g img hg
      obtain ⟨hjl, -⟩ := List.getElem?_eq_some_iff.1 hj
      refine ⟨h1, s.offset + j, by omega, by omega, (marks_iff_cells hh'.tiled _).2 ⟨b, f, ?_⟩⟩
      rw [hh'.cells, insertAt_getElem? (by omega), if_neg (by omega), length_map, if_pos (by omega),
        show s.offset + j + 1 - (s.offset + 1) = j by omega, getElem?_map, hj, Option.map_some, Cell.reborn,
        if_neg (hnl b f (mem_of_getElem? hj))])
  have hcells₂ := hh'.removeParas d'.fDefault hin
  rw [show s.offset + 1 + s.length = s.offset + 1 + (span.map (Cell.reborn
    (paraFormatAt (d.undoing s rest).fParas s.offset))).length by rw [length_map, hl],
    cut_insertAt (by omega)] at hcells₂
  have hremove : ∀ rs, (({ d' with fParas := placeImages s.images d'.fParas }.redoing rs).remove s.offset
      s.length).fParas = (removeParas d'.fDefault (placeImages s.images d'.fParas) s.offset s.length).1 := fun rs => by
    rw [remove_fParas h0 (Nat.lt_of_lt_of_le (Nat.lt_add_of_pos_right h0) hin)]
    exact congrArg (fun n => (removeParas d'.fDefault (placeImages s.images d'.fParas) s.offset n).1) (clipLength_eq hin)
  refine hs.undoRedo h hd₁ hsh.undo hsh.redo (redoStep_remove hr.kind _) ?_
  unfold PWDocument.StepRedoable
  rw [hr.kind, hremove]
  exact iff_of_true ⟨hcells₂.cells, hslots₂⟩ trivial

/-! ## A text typed again -/

theorem Para.Tiled.formatForInsert {p : Para} (h : p.Tiled) (dflt : PWCharFormat) {k : Nat} (hk : k < p.text.length) :
    (formats p.runs)[k]? = some (p.formatForInsert dflt (k + 1)) := by
  obtain ⟨r, hr, h1, h2⟩ := Tiles.exists_run h (k : Int) (by omega) (by omega)
  have hl : r.rEnd = r.start + r.length := rfl
  unfold Para.formatForInsert
  cases hf : p.runs.reverse.find? (fun r => decide (r.length > 0 ∧ ((k + 1 : Nat) : Int) > r.start ∧
      ((k + 1 : Nat) : Int) ≤ r.rEnd)) with
  | none =>
    have := find?_eq_none.1 hf r (mem_reverse.2 hr)
    exact absurd (decide_eq_true ⟨by omega, by omega, by omega⟩) this
  | some x =>
    have hx := find?_some hf
    rw [decide_eq_true_eq] at hx
    exact Tiles.getElem?_formats h x k (mem_reverse.1 (mem_of_find?_eq_some hf)) (by omega) (by omega)

theorem formatForInsert_zero {p : Para} {runs : List PWRun} {n : Nat} (dflt : PWCharFormat) (h : Tiles 0 runs n)
    (hp : p.runs = normalizeRuns dflt n runs) : p.formatForInsert dflt 0 = (formats runs).head?.getD dflt := by
  obtain ⟨r, rs, hrs, hr⟩ := head_normalizeRuns dflt h
  obtain ⟨ht, -⟩ := normalizeRuns_spec dflt h
  unfold Para.formatForInsert
  have hnone : p.runs.reverse.find? (fun r => decide (r.length > 0 ∧ ((0 : Nat) : Int) > r.start ∧
      ((0 : Nat) : Int) ≤ r.rEnd)) = none := by
    rw [find?_eq_none]
    intro x hx
    rw [mem_reverse, hp] at hx
    have := (ht.mem x hx).1
    rw [decide_eq_true_eq]
    omega
  rw [hnone, hp, hrs]
  exact hr

/-- **The format of a text typed again**, read off the document that still has it. -/
theorem Sound.retypeFormat {d : PWDocument} (hs : Sound d) {offset n : Nat} (h0 : 0 < n)
    (hch : ∀ j, j < n → ∃ b f, (cells d.fParas)[offset + j + 1]? = some (.ch b f)) (hr : offset + n ≤ docLength d.fParas) :
    (paraAt (removeParas d.fDefault d.fParas offset n).1 (locate (removeParas d.fDefault d.fParas offset n).1
      offset).1).formatForInsert d.fDefault (locate (removeParas d.fDefault d.fParas offset n).1 offset).2 =
      d.retypeFormat offset n := by
  obtain ⟨pre, p, post, k, hps, hloc, hk, hmin⟩ := locate_spec hs.ready.ne_nil offset
  have ht := hs.ready.tiled
  have hL := docLength_add_one hs.ready.ne_nil
  rw [PWDocument.retypeFormat]
  simp only [PWDocument.formatAt]
  rw [hps] at hloc hch hr hmin ht hL ⊢
  have hp : p.Tiled := ht p (by simp)
  rw [byteSpan_append, byteSpan_cons] at hL
  obtain rfl : offset = byteSpan pre + k := by omega
  have hkn : k + n ≤ p.text.length := by
    by_contra hlt
    have hm := (marks_iff_cells ht _).2 (hch (p.text.length - k) (by omega))
    rw [show byteSpan pre + k + (p.text.length - k) = byteSpan pre + p.text.length by omega, marks_behind, marks_end] at hm
    cases hm
  have hrem : (removeParas d.fDefault (pre ++ p :: post) (byteSpan pre + k) n).1 = pre ++ p.eraseText d.fDefault k n :: post := by
    rw [removeParas, hloc]
    dsimp only
    rw [drop_mid, take_mid]
    dsimp only
    rw [removeLoop_within d.fDefault _ h0 hkn]
  have hlen : (p.eraseText d.fDefault k n).text.length = p.text.length - n := by
    show (cut k (k + n) p.text).length = _
    rw [length_cut (by omega) hkn, Nat.add_sub_cancel_left]
  obtain ⟨herase, hformats⟩ := eraseRuns_spec hp h0 hkn
  rw [hrem, locate_mid post (by omega), paraAt_mid, hloc, paraAt_mid]
  dsimp only
  cases k with
  | zero =>
    rw [if_neg (by omega), formatForInsert_zero d.fDefault herase rfl, hformats, cut, take_zero, nil_append,
      Nat.zero_add, head?_drop]
    by_cases hn : n < p.text.length
    · rw [if_pos hn, Nat.add_zero, locate_mid post (Nat.le_of_lt hn), paraAt_mid, hp.formatAt d.fDefault hn]
      rfl
    · rw [if_neg hn, getElem?_eq_none (by rw [hp.length_formats]; omega)]
      rfl
  | succ k =>
    obtain ⟨hq, -⟩ := hp.eraseText d.fDefault (k + 1) n h0 hkn
    have hf := hq.formatForInsert d.fDefault (k := k) (by omega)
    rw [show formats (p.eraseText d.fDefault (k + 1) n).runs = cut (k + 1) (k + 1 + n) (formats p.runs) from
      (normalizeRuns_spec d.fDefault herase).2.trans hformats, cut_getElem? (by omega) (by rw [hp.length_formats]; omega),
      if_pos (by omega), hp.formatAt d.fDefault (by omega)] at hf
    rw [if_pos (by omega), show byteSpan pre + (k + 1) - 1 = byteSpan pre + k by omega, locate_mid post (by omega),
      paraAt_mid]
    exact (Option.some.inj hf).symm

theorem Sound.slots_retyped {d : PWDocument} (hs : Sound d) {offset n : Nat} (hr : offset + n ≤ docLength d.fParas) :
    insertAt offset (List.replicate n none) (slots (removeParas d.fDefault d.fParas offset n).1) = slots d.fParas ↔
      ∀ g, offset ≤ g → g < offset + n → d.imageAt g = none := by
  have hne := hs.ready.ne_nil
  have hlen : (slots d.fParas).length = docLength d.fParas + 1 := by rw [length_slots, docLength_add_one hne]
  have hlen' := (hs.ready.holds.removeParas d.fDefault hr)
  constructor
  · intro h g h1 h2
    have hg := imageAt_of_le hne (g := g) (by omega)
    rw [← h, insertAt_getElem? (by
      rw [length_slots, ← docLength_add_one hlen'.ne_nil, ← hlen'.length, length_cut (by omega) (by
        rw [hs.ready.holds.length]; omega), hs.ready.holds.length]
      omega), if_neg (by omega), length_replicate, if_pos h2, getElem?_replicate, if_pos (by omega),
      Option.some.injEq] at hg
    exact hg.symm
  · intro h
    have hnone : ∀ g, offset ≤ g → g < offset + n → (slots d.fParas)[g]? = some none := fun g h1 h2 => by
      rw [imageAt_of_le hne (by omega), h g h1 h2]
    rw [slots_removeParas hne hs.keyed d.fDefault hr (fun g img h1 h2 hg => by
      rw [hnone g h1 h2] at hg
      cases hg)]
    have hback := insertAt_cut (i := offset) (j := offset + n) (l := slots d.fParas) (by omega) (by omega)
    rw [Nat.add_sub_cancel_left, take_drop_eq_replicate hnone] at hback
    exact hback

theorem eq_map_ch_iff {B : List Cell} {t : List Byte} (f : PWCharFormat) (hB : B.map Cell.byte = t) (hn : newline ∉ t) :
    B = t.map (Cell.ch · f) ↔ ∀ (j : Nat) b g, B[j]? = some (.ch b g) → g = f := by
  subst hB
  constructor
  · intro h j b g hj
    rw [h, map_map, getElem?_map, Option.map_eq_some_iff] at hj
    obtain ⟨c, -, hc⟩ := hj
    rw [Function.comp_apply, Cell.ch.injEq] at hc
    exact hc.2.symm
  · intro h
    rw [map_map]
    refine ((map_id B).symm.trans (map_congr_left (fun c hc => ?_)))
    obtain ⟨j, hj⟩ := getElem?_of_mem hc
    cases c with
    | brk F => exact absurd (mem_map.2 ⟨Cell.brk F, hc, rfl⟩) hn
    | ch b g => rw [h j b g hj]; rfl

theorem Sound.retyped_longer {d : PWDocument} (hs : Sound d) {s : UndoStep} {rest : List UndoStep}
    (hl : s.length = s.text.length) (hout : docLength d.fParas < s.offset + s.length) (h0 : 0 < s.length) :
    cells ((((d.undoing s rest).remove s.offset s.length).redoing d.fRedo).insert s.offset s.text none).fParas ≠
      cells d.fParas := by
  have hL := hs.ready.holds.length
  obtain ⟨cs, hh, hlen⟩ : ∃ cs, Holds ((d.undoing s rest).remove s.offset s.length).fParas cs ∧
      docLength d.fParas + 1 < cs.length + s.length := by
    by_cases ho : s.offset < docLength d.fParas
    · obtain ⟨hc0, hcr⟩ := clipLength_pos h0 ho
      have hcut := hs.ready.holds.removeParas d.fDefault hcr
      have hclip : clipLength d.fParas s.offset s.length = docLength d.fParas - s.offset := if_pos (by omega)
      rw [remove_fParas h0 (show s.offset < docLength (d.undoing s rest).fParas from ho)]
      refine ⟨_, hcut, ?_⟩
      rw [length_cut (by omega) (by omega)]
      omega
    · refine ⟨cells d.fParas, ?_, by omega⟩
      have hrem : (d.undoing s rest).remove s.offset s.length = d.undoing s rest := if_pos (Or.inr (Nat.le_of_not_lt ho))
      rw [hrem]
      exact hs.ready.holds
  obtain ⟨B, hB, hh₂⟩ := Holds.insert (d := ((d.undoing s rest).remove s.offset s.length).redoing d.fRedo) hh s.offset
    s.text none
  intro hcells
  have hlen₂ := congrArg List.length (hh₂.cells.symm.trans hcells)
  rw [length_insertAt, hB.length] at hlen₂
  omega

theorem Sound.cells_retyped {d : PWDocument} (hs : Sound d) {s : UndoStep} {rest : List UndoStep} (h0 : s.text ≠ [])
    (hl : s.length = s.text.length) {A B C : List Cell} (hcs : cells d.fParas = A ++ B ++ C)
    (hA : A.length = s.offset + 1) (hB : B.map Cell.byte = s.text)
    (hnl : newline ∉ s.text ∨ s.coalesce = false ∧ B = [.brk (lastFormat {} A)])
    (hin : s.offset + s.length ≤ docLength d.fParas) :
    cells ((((d.undoing s rest).remove s.offset s.length).redoing d.fRedo).insert s.offset s.text none).fParas =
        cells d.fParas ↔
      (newline ∉ s.text → ∀ g, s.offset ≤ g → g < s.offset + s.length →
        d.formatAt g = d.retypeFormat s.offset s.length) := by
  have hpos : 0 < s.length := hl ▸ length_pos_iff.2 h0
  have hBl : B.length = s.length := by rw [hl, ← hB, length_map]
  have hcut : Holds (((d.undoing s rest).remove s.offset s.length).redoing d.fRedo).fParas (A ++ C) := by
    have hh := hs.ready.holds.remove (d := d.undoing s rest) hpos hin
    have hc : cut (s.offset + 1) (s.offset + 1 + s.length) (A ++ B ++ C) = A ++ C := by
      rw [← hA, ← hBl, append_assoc, cut, take_left, drop_length_add_append, drop_left]
    rw [hcs, hc] at hh
    exact hh
  have hparas : (((d.undoing s rest).remove s.offset s.length).redoing d.fRedo).fParas =
      (removeParas d.fDefault d.fParas s.offset s.length).1 := by
    have hr := remove_fParas (d := d.undoing s rest) hpos (Nat.lt_of_lt_of_le (Nat.lt_add_of_pos_right hpos) hin)
    exact hr.trans (congrArg (fun n => (removeParas d.fDefault d.fParas s.offset n).1) (clipLength_eq hin))
  have hdflt : (((d.undoing s rest).remove s.offset s.length).redoing d.fRedo).fDefault = d.fDefault :=
    (sameShell_remove (undoing_internal d s rest) s.offset s.length).dflt
  generalize ((d.undoing s rest).remove s.offset s.length).redoing d.fRedo = D at hcut hparas hdflt ⊢
  have hmin : s.offset ≤ docLength D.fParas := by
    have := hcut.length
    rw [length_append] at this
    omega
  by_cases hnew : newline ∈ s.text
  · -- a separator takes the format of the paragraph it splits, as it did before
    refine iff_of_true ?_ (fun hn => absurd hnew hn)
    obtain ⟨-, hBF⟩ := hnl.resolve_left (fun hn => hn hnew)
    obtain ⟨B', hB', hh⟩ := hcut.insert s.offset s.text none
    rw [Nat.min_eq_left hmin, ← hA, insertAt_length rfl] at hh
    have hF : paraFormatAt D.fParas s.offset = lastFormat {} A := by
      rw [hcut.paraFormatAt, Nat.min_eq_left hmin, ← hA, take_left]
    rw [← hB, hBF, hF] at hB'
    cases hB' with
    | cons hx hnil =>
      cases hnil
      rw [show (Cell.brk (lastFormat {} A)).byte = newline from rfl, if_pos rfl] at hx
      rw [hh.cells, hcs, hBF, hx, append_assoc]
  · have hins : (D.insert s.offset s.text none).fParas =
        insertParas D.fDefault D.fParas s.offset s.text none := by
      rw [PWDocument.insert, if_neg h0, if_neg hnew]
      exact congrArg Prod.fst (insertLine_content D s.offset s.text none)
    have hch : ∀ j, j < s.length → ∃ b f, B[j]? = some (.ch b f) ∧ (cells d.fParas)[s.offset + j + 1]? = some (.ch b f) := by
      intro j hj
      have hget : (cells d.fParas)[s.offset + j + 1]? = B[j]? := by
        rw [hcs, append_assoc, getElem?_append_right (by omega), getElem?_append_left (by omega), hA,
          show s.offset + j + 1 - (s.offset + 1) = j by omega]
      rw [hget, getElem?_eq_getElem (by omega)]
      cases hc : B[j] with
      | brk F => exact absurd (hB ▸ mem_map.2 ⟨Cell.brk F, hc ▸ getElem_mem _, rfl⟩) hnew
      | ch b f => exact ⟨b, f, rfl, rfl⟩
    have hf := hs.retypeFormat hpos (fun j hj => by
      obtain ⟨b, f, -, hc⟩ := hch j hj
      exact ⟨b, f, hc⟩) hin
    have hh := hcut.insertParas D.fDefault s.offset none h0
    rw [← hins, Nat.min_eq_left hmin, ← hA, insertAt_length rfl, hparas, hdflt, Option.getD_none, hf] at hh
    rw [hh.cells, hcs, append_assoc, append_right_inj, append_left_inj, eq_comm,
      eq_map_ch_iff _ hB hnew]
    constructor
    · intro hall _ g h1 h2
      obtain ⟨b, f, hb, hc⟩ := hch (g - s.offset) (by omega)
      rw [show s.offset + (g - s.offset) + 1 = g + 1 by omega] at hc
      rw [hs.ready.tiled.formatAt hs.ready.ne_nil hc]
      exact hall _ b f hb
    · intro hall j b g hj
      have hlt := (List.getElem?_eq_some_iff.1 hj).1
      obtain ⟨b', f, hb, hc⟩ := hch j (by omega)
      rw [hj, Option.some.injEq, Cell.ch.injEq] at hb
      rw [hb.2, ← hs.ready.tiled.formatAt hs.ready.ne_nil hc]
      exact hall hnew (s.offset + j) (by omega) (by omega)

theorem Sound.redo_insert {d : PWDocument} (hs : Sound d) {s : UndoStep} {rest : List UndoStep} (h : d.fUndo = s :: rest)
    (hk : s.kind = .insert) (h0 : s.text ≠ []) (hl : s.length = s.text.length)
    (hat : docLength d.fParas < s.offset + s.length ∨ ∃ A B C, cells d.fParas = A ++ B ++ C ∧ A.length = s.offset + 1 ∧
      B.map Cell.byte = s.text ∧ (newline ∉ s.text ∨ s.coalesce = false ∧ B = [.brk (lastFormat {} A)])) :
    ∃ e₁ e₂, d.undo = some e₁ ∧ e₁.redo = some e₂ ∧ (SameParas d.fParas e₂.fParas ↔ d.StepRedoable s) := by
  have hsh := sameShell_remove (undoing_internal d s rest) s.offset s.length
  have hpos : 0 < s.length := hl ▸ length_pos_iff.2 h0
  refine hs.undoRedo h (undoStep_insert hk _) hsh.undo hsh.redo (redoStep_insert hk _) ?_
  unfold PWDocument.StepRedoable
  rw [hk]
  dsimp only
  by_cases hin : s.offset + s.length ≤ docLength d.fParas
  · obtain ⟨A, B, C, hcs, hA, hB, hnl⟩ := hat.resolve_left (Nat.not_lt.2 hin)
    have hrem := remove_fParas (d := d.undoing s rest) hpos (Nat.lt_of_lt_of_le (Nat.lt_add_of_pos_right hpos) hin)
    have hparas : (((d.undoing s rest).remove s.offset s.length).redoing d.fRedo).fParas =
        (removeParas d.fDefault d.fParas s.offset s.length).1 :=
      hrem.trans (congrArg (fun n => (removeParas d.fDefault d.fParas s.offset n).1) (clipLength_eq hin))
    have hcut := hs.ready.holds.removeParas d.fDefault hin
    have hlen := hcut.length
    rw [length_cut (by omega) (by rw [hs.ready.holds.length]; omega), hs.ready.holds.length] at hlen
    rw [hs.cells_retyped h0 hl hcs hA hB hnl hin, slots_insert (hparas ▸ hcut.ne_nil), hparas,
      Nat.min_eq_left (by omega), ← hl, hs.slots_retyped hin]
    exact ⟨fun ⟨h1, h2⟩ => ⟨hin, fun g h3 h4 => ⟨h2 g h3 h4, fun hn => h1 hn g h3 h4⟩⟩,
      fun ⟨_, h1⟩ => ⟨fun hn g h3 h4 => (h1 g h3 h4).2 hn, fun g h3 h4 => (h1 g h3 h4).1⟩⟩
  · exact iff_of_false (fun hc => hs.retyped_longer hl (Nat.lt_of_not_le hin) hpos hc.1) (fun hc => hin hc.1)

/-! ## Documents reached by edits alone -/

def Call.Forward : Call → Prop
  | .undo => False
  | .redo => False
  | _     => True

/-- Reached from a new document without an `Undo` or a `Redo`. -/
def EditedTo (plain : FontFamily) (d : PWDocument) : Prop :=
  ReflTransGen (fun d d' => ∃ c : Call, c.Forward ∧ d.call c = some d') (PWDocument.new plain) d

theorem EditedTo.reachable {plain : FontFamily} {d : PWDocument} (h : EditedTo plain d) : Reachable plain d := by
  induction h with
  | refl => exact ReflTransGen.refl
  | tail _ hstep ih =>
    obtain ⟨c, -, hc⟩ := hstep
    exact ReflTransGen.tail ih ⟨c, hc⟩

theorem Edits.topDescribes {d d' : PWDocument} (h : Edits d d') (hs : Sound d) (ht : d.TopDescribes) :
    Sound d' ∧ d'.TopDescribes := by
  induction h with
  | refl => exact ⟨hs, ht⟩
  | tail _ hstep ih => exact ⟨hstep.sound ih.1, hstep.topDescribes ih.1 ih.2⟩

theorem call_topDescribes {d d' : PWDocument} {c : Call} (hf : c.Forward) (h : d.call c = some d') (hs : Sound d)
    (ht : d.TopDescribes) : d'.TopDescribes := by
  cases c with
  | edit e => exact ((edit_edits h).topDescribes hs ht).2
  | undo => cases hf
  | redo => cases hf
  | addStyle name chr para =>
    cases h
    unfold PWDocument.addStyle
    split <;> exact ht
  | removeStyle i =>
    cases h
    unfold PWDocument.removeStyle
    split <;> exact ht
  | setUndoCoalescing on => cases h; exact ht
  | clearStyles => cases h; exact ht
  | setHeaderText text => cases h; exact ht
  | setFooterText text => cases h; exact ht
  | setDefaultFormat fmt => cases h; exact ht
  | savedClean => cases h; exact ht

theorem EditedTo.topDescribes {plain : FontFamily} {d : PWDocument} (h : EditedTo plain d) : d.TopDescribes := by
  induction h with
  | refl => exact fun s rest hu => by cases hu
  | tail hd hstep ih =>
    obtain ⟨c, hf, hc⟩ := hstep
    exact call_topDescribes hf hc (EditedTo.reachable hd).sound ih

/-- **`Undo` and then `Redo` give the paragraphs back exactly when the step is `Redoable`.** -/
theorem undo_redo_iff {plain : FontFamily} {d : PWDocument} (h : EditedTo plain d) (hu : d.canUndo = true) :
    ∃ d₁ d₂, d.undo = some d₁ ∧ d₁.redo = some d₂ ∧ (SameParas d.fParas d₂.fParas ↔ d.Redoable) := by
  have hs := h.reachable.sound
  have htop := h.topDescribes
  obtain ⟨s, rest, hsr⟩ : ∃ s rest, d.fUndo = s :: rest := by
    unfold PWDocument.canUndo at hu
    cases hd : d.fUndo with
    | nil => rw [hd] at hu; cases hu
    | cons s rest => exact ⟨s, rest, rfl⟩
  have hone : d.Redoable ↔ d.StepRedoable s :=
    ⟨fun hr => hr s rest hsr, fun hr s' rest' hs' => by
      rw [hsr, List.cons.injEq] at hs'
      rw [← hs'.1]
      exact hr⟩
  rw [hone]
  have hstep := htop s rest hsr
  unfold TopStep at hstep
  cases hk : s.kind with
  | insert =>
    rw [hk] at hstep
    obtain ⟨h0, hl, hat⟩ := hstep
    exact hs.redo_insert hsr hk h0 hl hat
  | remove =>
    rw [hk] at hstep
    obtain ⟨h0, ho, span, hr, hnl, himg⟩ := hstep
    exact hs.redo_remove hsr h0 ho hr hnl himg
  | format =>
    rw [hk] at hstep
    obtain ⟨A, M, C, span, hcs, hA, hr⟩ := hstep
    exact hs.redo_format hsr hcs hA hr
  | paraformat =>
    rw [hk] at hstep
    exact hs.redo_paraformat hsr hk hstep

theorem EditedTo.of_call {plain : FontFamily} {d d' : PWDocument} {c : Call} (h : EditedTo plain d) (hf : c.Forward)
    (hc : d.call c = some d') : EditedTo plain d' := ReflTransGen.tail h ⟨c, hf, hc⟩

theorem EditedTo.new (plain : FontFamily) : EditedTo plain (PWDocument.new plain) := ReflTransGen.refl

/-- **A paragraph set centered is not centered again.** -/
theorem redo_loses_paraFormat : ∃ d d₁ d₂, EditedTo noFamily d ∧ d.canUndo = true ∧ d.undo = some d₁ ∧
    d₁.redo = some d₂ ∧ ¬ SameParas d.fParas d₂.fParas := by
  refine ⟨_, _, _, (EditedTo.new noFamily).of_call (c := .edit (.setParaFormat 0 { alignment := .center })) trivial rfl, rfl,
    rfl, rfl, ?_⟩
  rintro (_ | ⟨⟨-, -, hF, -⟩, -⟩)
  cases hF

theorem undo_redo_iff_removedByte : ∃ d d₁ d₂, EditedTo noFamily d ∧ d.undo = some d₁ ∧ d₁.redo = some d₂ ∧
    SameParas d.fParas d₂.fParas := by
  have h := ((EditedTo.new noFamily).of_call (c := .edit (.insert 0 [byteA, byteB] none)) trivial rfl).of_call
    (c := .edit (.remove 0 1)) trivial rfl
  have hundo := undo_redo_iff h rfl
  obtain ⟨d₁, d₂, h1, h2, hiff⟩ := hundo
  exact ⟨_, d₁, d₂, h, h1, h2, hiff.2 (fun s rest hs => by cases hs; trivial)⟩

end Writer
end Prose
