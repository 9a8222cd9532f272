import Prose.Trail
import Prose.WriterCalls
import Prose.WriterRestore
/-!
# WriterUndo — the undo stack leads back to the start

What a reader sees of a document is its glyphs: every byte with its format, a newline without one.  Every step on the
undo stack takes one change of the glyphs back (`Undoes`), every edit keeps the stack a trail back to the start
(`Trail.LeadsBack`), and so undoing until the stack is empty gives the start back (`undoAll_restores`).
-/
namespace Prose
namespace Writer

open Splice Trail List

abbrev Glyph := Byte × Option PWCharFormat

def Cell.glyph : Cell → Glyph
  | .brk _  => (newline, none)
  | .ch b f => (b, if b = newline then none else some f)

def glyphs (ps : List Para) : List Glyph := (cells ps).map Cell.glyph

theorem Cell.glyph_fst (c : Cell) : c.glyph.1 = c.byte := by cases c <;> rfl

theorem map_glyph_fst (cs : List Cell) : (cs.map Cell.glyph).map Prod.fst = cs.map Cell.byte := by
  rw [map_map]
  exact map_congr_left (fun c _ => c.glyph_fst)

theorem Cell.glyph_reborn (F : PWParaFormat) (c : Cell) : (c.reborn F).glyph = c.glyph := by
  cases c with
  | brk G => rfl
  | ch b f =>
    rw [Cell.reborn]
    split
    · rename_i hb
      rw [Cell.glyph, Cell.glyph, hb, if_pos rfl]
    · rfl

theorem map_glyph_reborn (F : PWParaFormat) (cs : List Cell) :
    (cs.map (Cell.reborn F)).map Cell.glyph = cs.map Cell.glyph := by
  rw [map_map]
  exact map_congr_left (fun c _ => c.glyph_reborn F)

theorem Cell.glyph_adopt {m c : Cell} (h : m.byte = c.byte) : (m.adopt c).glyph = c.glyph := by
  cases m with
  | brk F =>
    cases c with
    | brk G => rfl
    | ch b f =>
      have hb : b = newline := h.symm
      rw [hb]
      rfl
  | ch b f =>
    cases c with
    | brk G =>
      have hb : b = newline := h
      rw [hb]
      rfl
    | ch b' f' =>
      have hb : b = b' := h
      rw [hb]
      rfl

theorem map_glyph_adopt {M span : List Cell} (h : M.map Cell.byte = span.map Cell.byte) :
    (List.zipWith Cell.adopt M span).map Cell.glyph = span.map Cell.glyph := by
  induction M generalizing span with
  | nil =>
    rw [map_eq_nil_iff.1 h.symm]
    rfl
  | cons m M ih =>
    obtain ⟨c, span, rfl, hc, hspan⟩ := map_eq_cons_iff.1 h.symm
    rw [zipWith_cons_cons, map_cons, map_cons, Cell.glyph_adopt hc.symm, ih hspan.symm]

/-! ## A step and the change it takes back -/

/-- **What undoing a step does to the glyphs.** -/
def Undoes (s : UndoStep) (G G' : List Glyph) : Prop :=
  match s.kind with
  | .insert => 0 < s.length ∧ s.offset + s.length < G.length ∧
      G' = cut (s.offset + 1) (s.offset + 1 + s.length) G
  | .remove => s.offset < G.length ∧ ∃ span, RemovedAt s span ∧
      G' = insertAt (s.offset + 1) (span.map Cell.glyph) G
  | .format => ∃ A M C span, G = A ++ M ++ C ∧ A.length = s.offset + 1 ∧ s.length = span.length ∧
      M.map Prod.fst = span.map Cell.byte ∧ Describes 0 s.runs span ∧ G' = A ++ span.map Cell.glyph ++ C
  | .paraformat => G' = G

structure Ready (d : PWDocument) : Prop where
  tiled : Tiled d.fParas
  ne_nil : d.fParas ≠ []
  user : d.fInternalEdit = false

theorem Ready.holds {d : PWDocument} (h : Ready d) : Holds d.fParas (cells d.fParas) := ⟨h.tiled, h.ne_nil, rfl⟩

theorem Ready.length_glyphs {d : PWDocument} (h : Ready d) : (glyphs d.fParas).length = docLength d.fParas + 1 := by
  rw [glyphs, length_map, h.holds.length]

/-- The document `Undo` works on: the step moved to the redo stack, the flags set. -/
def PWDocument.undoing (d : PWDocument) (s : UndoStep) (rest : List UndoStep) : PWDocument :=
  { d with fUndo := rest, fRedo := s :: d.fRedo, fCoalesce := false, fInternalEdit := true }

theorem undoing_internal (d : PWDocument) (s : UndoStep) (rest : List UndoStep) : (d.undoing s rest).Internal :=
  ⟨rfl, rfl⟩

theorem undo_eq {d d' : PWDocument} {s : UndoStep} {rest : List UndoStep} (h : d.fUndo = s :: rest)
    (hd : (d.undoing s rest).undoStep s = some d') (hu : d'.fUndo = rest) :
    d.undo = some { d' with fCoalesce := true, fInternalEdit := false, fModified := true } := by
  unfold PWDocument.undo
  rw [h]
  dsimp only
  rw [PWDocument.undoing] at hd
  rw [hd, Option.map_some, hu, Nat.sub_self, drop_zero]

theorem setFormatParas_forall₂ (ps : List Para) (i : Nat) (F : PWParaFormat) :
    List.Forall₂ (fun p q => q.text = p.text ∧ q.runs = p.runs) ps (setFormatParas ps i F) :=
  forall₂_modify (fun _ => ⟨rfl, rfl⟩) (fun _ => ⟨rfl, rfl⟩) ps i

theorem glyphs_congr {ps ps' : List Para} (h : List.Forall₂ (fun p q => q.text = p.text ∧ q.runs = p.runs) ps ps') :
    (Tiled ps → Tiled ps') ∧ (ps ≠ [] → ps' ≠ []) ∧ glyphs ps' = glyphs ps := by
  induction h with
  | nil => exact ⟨id, id, rfl⟩
  | @cons p q ps ps' hpq _ ih =>
    obtain ⟨h1, h2⟩ := hpq
    obtain ⟨ih1, -, ih3⟩ := ih
    refine ⟨fun ht => ?_, fun _ => cons_ne_nil q ps', ?_⟩
    · obtain ⟨hp, hps⟩ := tiled_cons.1 ht
      refine tiled_cons.2 ⟨?_, ih1 hps⟩
      unfold Para.Tiled at hp ⊢
      rwa [h1, h2]
    · unfold glyphs at ih3 ⊢
      rw [cells_cons, cells_cons, map_append, map_append, ih3, Para.cells, Para.cells, h1, h2]
      rfl

/-- **`Undo` does what its step says.** -/
theorem undo_spec {d : PWDocument} {s : UndoStep} {rest : List UndoStep} (h : Ready d) (hs : d.fUndo = s :: rest)
    {G' : List Glyph} (hG : Undoes s (glyphs d.fParas) G') :
    ∃ d', d.undo = some d' ∧ Ready d' ∧ d'.fUndo = rest ∧ glyphs d'.fParas = G' := by
  have hi := undoing_internal d s rest
  have hh := h.holds
  have hL := h.length_glyphs
  unfold Undoes at hG
  cases hk : s.kind with
  | insert =>
    rw [hk] at hG
    obtain ⟨h0, hr, rfl⟩ := hG
    have hrem := Holds.remove (d := d.undoing s rest) hh h0 (show s.offset + s.length ≤ docLength d.fParas by omega)
    have hu := (sameShell_remove hi s.offset s.length).undo
    refine ⟨_, undo_eq hs (undoStep_insert hk _) hu, ⟨hrem.tiled, hrem.ne_nil, rfl⟩, hu, ?_⟩
    exact (congrArg (List.map Cell.glyph) hrem.cells).trans (map_cut _ _ _ _)
  | remove =>
    rw [hk] at hG
    obtain ⟨ho, span, hspan, rfl⟩ := hG
    obtain ⟨d', hd', hsh, hback⟩ := hspan.undoStep hi hh (show s.offset ≤ docLength d.fParas by omega)
    refine ⟨_, undo_eq hs hd' hsh.undo, ⟨hback.tiled, hback.ne_nil, rfl⟩, hsh.undo, ?_⟩
    refine (congrArg (List.map Cell.glyph) hback.cells).trans ?_
    rw [map_insertAt, map_glyph_reborn]
    rfl
  | format =>
    rw [hk] at hG
    obtain ⟨A, M, C, span, hAMC, hA, hl, hM, hruns, rfl⟩ := hG
    obtain ⟨AM', C', hcs, hAM, hC⟩ := map_eq_append_iff.1 hAMC
    obtain ⟨A', M', rfl, hA', hM'⟩ := map_eq_append_iff.1 hAM
    have hbytes : M'.map Cell.byte = span.map Cell.byte := by rw [← hM, ← hM', map_glyph_fst]
    have hMl : M'.length = span.length := by
      have := congrArg List.length hbytes
      rwa [length_map, length_map] at this
    rw [hcs] at hh
    obtain ⟨cur, d', -, hd', hsh, hback⟩ := RestyledAt.undoStep (d := d.undoing s rest) ⟨hk, hl, hMl, hruns⟩ hh
      (by rw [← hA, ← hA', length_map]) hi
    refine ⟨_, undo_eq hs hd' hsh.undo, ⟨hback.tiled, hback.ne_nil, rfl⟩, hsh.undo, ?_⟩
    refine (congrArg (List.map Cell.glyph) hback.cells).trans ?_
    rw [map_append, map_append, hA', hC, map_glyph_adopt hbytes]
  | paraformat =>
    rw [hk] at hG
    subst hG
    obtain ⟨d', hd', hsh, hps⟩ := undoStep_paraformat hk (d.undoing s rest)
    obtain ⟨h1, h2, h3⟩ := glyphs_congr (setFormatParas_forall₂ d.fParas s.offset s.paraFormat)
    refine ⟨_, undo_eq hs hd' hsh.undo, ⟨?_, ?_, rfl⟩, hsh.undo, ?_⟩
    · exact hps ▸ h1 h.tiled
    · exact hps ▸ h2 h.ne_nil
    · exact (congrArg glyphs hps).trans h3

/-! ## What an edit records -/

/-- The steps `Insert` pushes for one line: none when the step on top takes it. -/
def PWDocument.insertLineSteps (d : PWDocument) (offset : Nat) (text : List Byte) : Nat :=
  if coalesces d offset text then 0 else 1

def PWDocument.insertSegmentSteps (d : PWDocument) (offset : Nat) (seg : List Byte) : Nat :=
  if seg = [] then 0 else d.insertLineSteps offset seg

def insertLinesSteps (fmt : Option PWCharFormat) : PWDocument → Nat → List (List Byte) → Nat
  | _, _, []         => 0
  | d, at', seg :: ls => match ls with
    | []     => d.insertSegmentSteps at' seg
    | _ :: _ => d.insertSegmentSteps at' seg + 1 +
        insertLinesSteps fmt ((d.insertSegment at' seg fmt).splitPara (at' + seg.length)) (at' + seg.length + 1) ls

def PWDocument.recorded (d : PWDocument) : Edit → Nat
  | .insert offset text fmt =>
    if text = [] then 0
    else if newline ∈ text then insertLinesSteps fmt d offset (lines text)
    else d.insertLineSteps offset text
  | .remove offset length => if length = 0 ∨ offset ≥ docLength d.fParas then 0 else 1
  | .applyFormat _ length _ => if length = 0 then 0 else 1
  | .setParaFormat para _ => if para ≥ d.fParas.length then 0 else 1
  | .splitPara _ => 1
  | _ => 0

/-- The document between two calls, its stack of `n` steps a trail back to `G₀`. -/
structure LeadsTo (G₀ : List Glyph) (n : Nat) (d : PWDocument) : Prop where
  ready : Ready d
  depth : d.fUndo.length = n
  leads : LeadsBack Undoes d.fUndo (glyphs d.fParas) G₀

theorem pushUndo_user {d : PWDocument} (hu : d.fInternalEdit = false) (hl : d.fUndo.length < 512) (s : UndoStep) :
    (d.pushUndo s).fUndo = s :: d.fUndo ∧ (d.pushUndo s).fInternalEdit = false := by
  unfold PWDocument.pushUndo
  rw [hu, if_neg Bool.false_ne_true]
  exact ⟨if_neg (by rw [length_cons]; omega), rfl⟩

/-- **An edit that pushes the step for its change keeps the trail.** -/
theorem LeadsTo.push {G₀ : List Glyph} {n : Nat} {d : PWDocument} (h : LeadsTo G₀ n d) (hn : n < 512) {ps : List Para}
    {id : Nat} {cs : List Cell} {s : UndoStep} (hps : Holds ps cs)
    (hs : Undoes s (cs.map Cell.glyph) (glyphs d.fParas)) :
    LeadsTo G₀ (n + 1) ({ d with fParas := ps, fNextParaId := id }.pushUndo s) := by
  obtain ⟨h1, h2⟩ := pushUndo_user (d := { d with fParas := ps, fNextParaId := id }) h.ready.user
    (show d.fUndo.length < 512 by rw [h.depth]; exact hn) s
  have hp := pushUndo_fParas { d with fParas := ps, fNextParaId := id } s
  refine ⟨⟨by rw [hp]; exact hps.tiled, by rw [hp]; exact hps.ne_nil, h2⟩, ?_, ?_⟩
  · rw [h1, length_cons]
    exact congrArg (· + 1) h.depth
  · rw [h1, hp]
    refine h.leads.push ?_
    rw [glyphs, hps.cells]
    exact hs

theorem coalesces_iff {d : PWDocument} {offset : Nat} {t : List Byte} (h : coalesces d offset t = true) :
    ∃ top rest, d.fUndo = top :: rest ∧ top.kind = .insert ∧ top.coalesce = true ∧ top.offset + top.length = offset := by
  unfold coalesces at h
  split at h
  · cases h
  · rename_i top rest hu
    simp only [Bool.and_eq_true, decide_eq_true_eq] at h
    exact ⟨top, rest, hu, h.1.1.1.2, h.1.1.2, h.1.2⟩

theorem LeadsTo.insertLine {G₀ : List Glyph} {n : Nat} {d : PWDocument} (h : LeadsTo G₀ n d) {offset : Nat}
    {t : List Byte} (ht : t ≠ []) (ho : offset ≤ docLength d.fParas) (fmt : Option PWCharFormat)
    (hn : n + d.insertLineSteps offset t ≤ 512) :
    LeadsTo G₀ (n + d.insertLineSteps offset t) (d.insertLine offset t fmt) := by
  have hh := h.ready.holds.insertParas d.fDefault offset fmt ht
  have hL := h.ready.length_glyphs
  have hpos : 0 < t.length := length_pos_iff.2 ht
  rw [Nat.min_eq_left ho] at hh
  generalize hB : t.map (Cell.ch · (fmt.getD
    ((paraAt d.fParas (locate d.fParas offset).1).formatForInsert d.fDefault (locate d.fParas offset).2))) = B at hh
  have hBl : B.length = t.length := by rw [← hB, length_map]
  unfold PWDocument.insertLineSteps at hn ⊢
  unfold PWDocument.insertLine
  by_cases hc : coalesces d offset t = true
  · obtain ⟨top, rest, hu, hk, -, hto⟩ := coalesces_iff hc
    rw [if_pos hc, if_pos hc]
    refine ⟨⟨hh.tiled, hh.ne_nil, h.ready.user⟩, ?_, ?_⟩
    · rw [← h.depth]
      show (d.fUndo.modifyHead _).length = _
      rw [length_modifyHead]
      rfl
    · have hl := h.leads
      rw [hu] at hl
      show LeadsBack Undoes (d.fUndo.modifyHead _) ((cells _).map Cell.glyph) G₀
      rw [hu, hh.cells, modifyHead_cons]
      refine hl.extend (fun w hw => ?_)
      -- the longer step takes both insertions out again
      unfold Undoes at hw ⊢
      rw [hk] at hw
      dsimp only
      rw [hk]
      dsimp only at hw ⊢
      obtain ⟨h0, hlt, rfl⟩ := hw
      refine ⟨by omega, ?_, ?_⟩
      · rw [length_map, length_insertAt, hBl, h.ready.holds.length]
        omega
      · rw [map_insertAt, ← hto]
        have := cut_insertAt_inside (i := top.offset + 1) (m := top.offset + 1 + top.length) (l := glyphs d.fParas)
          (by omega) (by omega) (B.map Cell.glyph)
        rw [length_map, hBl] at this
        rw [show top.offset + 1 + (top.length + t.length) = top.offset + 1 + top.length + t.length by omega,
          show top.offset + top.length + 1 = top.offset + 1 + top.length by omega]
        exact this.symm
  · rw [if_neg hc] at hn
    rw [if_neg hc, if_neg hc]
    refine h.push (by omega) hh ?_
    unfold Undoes
    dsimp only
    refine ⟨hpos, ?_, ?_⟩
    · rw [length_map, length_insertAt, hBl, h.ready.holds.length]
      omega
    · rw [map_insertAt]
      have := cut_insertAt (i := offset + 1) (l := glyphs d.fParas) (by omega) (B.map Cell.glyph)
      rw [length_map, hBl] at this
      exact this.symm

theorem LeadsTo.splitPara {G₀ : List Glyph} {n : Nat} {d : PWDocument} (h : LeadsTo G₀ n d) (offset : Nat)
    (ho : offset ≤ docLength d.fParas) (hn : n < 512) : LeadsTo G₀ (n + 1) (d.splitPara offset) := by
  have hh := h.ready.holds.splitParas d.fDefault offset d.fNextParaId
  have hL := h.ready.length_glyphs
  rw [Nat.min_eq_left ho] at hh
  refine h.push hn hh ?_
  unfold Undoes
  dsimp only
  refine ⟨Nat.one_pos, ?_, ?_⟩
  · rw [length_map, length_insertAt, length_singleton, h.ready.holds.length]
    omega
  · rw [map_insertAt]
    exact (cut_insertAt (by omega) _).symm

theorem insertSegment_docLength {d : PWDocument} (h : Ready d) (offset : Nat) {seg : List Byte}
    (fmt : Option PWCharFormat) (hs : newline ∉ seg) :
    docLength (d.insertSegment offset seg fmt).fParas = docLength d.fParas + seg.length := by
  obtain ⟨B, hB, hd⟩ := h.holds.insertSegment offset fmt hs
  have := hd.length
  rw [length_insertAt, hB.length, h.holds.length] at this
  omega

theorem splitPara_docLength {d : PWDocument} (h : Ready d) (offset : Nat) :
    docLength (d.splitPara offset).fParas = docLength d.fParas + 1 := by
  have := (h.holds.splitParas d.fDefault offset d.fNextParaId).length
  rw [length_insertAt, length_singleton, h.holds.length, ← splitPara_fParas] at this
  omega

theorem LeadsTo.insertSegment {G₀ : List Glyph} {n : Nat} {d : PWDocument} (h : LeadsTo G₀ n d) {offset : Nat}
    (seg : List Byte) (ho : offset ≤ docLength d.fParas) (fmt : Option PWCharFormat)
    (hn : n + d.insertSegmentSteps offset seg ≤ 512) :
    LeadsTo G₀ (n + d.insertSegmentSteps offset seg) (d.insertSegment offset seg fmt) := by
  unfold PWDocument.insertSegmentSteps at hn ⊢
  unfold PWDocument.insertSegment
  by_cases h0 : seg = []
  · rw [if_pos h0, if_pos h0]
    exact h
  · rw [if_neg h0] at hn
    rw [if_neg h0, if_neg h0]
    exact h.insertLine h0 ho fmt hn

theorem insertLinesSteps_cons (fmt : Option PWCharFormat) (d : PWDocument) (at' : Nat) (seg l : List Byte)
    (ls : List (List Byte)) : insertLinesSteps fmt d at' (seg :: l :: ls) = d.insertSegmentSteps at' seg + 1 +
      insertLinesSteps fmt ((d.insertSegment at' seg fmt).splitPara (at' + seg.length)) (at' + seg.length + 1)
        (l :: ls) := rfl

theorem LeadsTo.insertLines {G₀ : List Glyph} (fmt : Option PWCharFormat) : ∀ (ls : List (List Byte)) {n : Nat}
    {d : PWDocument} (at' : Nat), LeadsTo G₀ n d → (∀ l ∈ ls, newline ∉ l) → at' ≤ docLength d.fParas →
    n + insertLinesSteps fmt d at' ls ≤ 512 →
    LeadsTo G₀ (n + insertLinesSteps fmt d at' ls) (insertLines fmt d at' ls)
  | [], _, _, _, h, _, _, _ => h
  | [seg], _, _, _, h, _, ho, hn => h.insertSegment seg ho fmt hn
  | seg :: l :: ls, n, d, at', h, hl, ho, hn => by
    have hs := hl seg mem_cons_self
    rw [insertLinesSteps_cons] at hn ⊢
    have h1 := h.insertSegment seg ho fmt (by omega)
    have hL := insertSegment_docLength h.ready at' fmt hs
    have h2 := h1.splitPara (at' + seg.length) (by omega) (by omega)
    have hL2 := splitPara_docLength h1.ready (at' + seg.length)
    have h3 := LeadsTo.insertLines fmt (l :: ls) (at' + seg.length + 1) h2
      (fun x hx => hl x (mem_cons_of_mem _ hx)) (by omega) (by omega)
    rwa [Nat.add_assoc, Nat.add_assoc, ← Nat.add_assoc (d.insertSegmentSteps at' seg)] at h3

theorem LeadsTo.insert {G₀ : List Glyph} {n : Nat} {d : PWDocument} (h : LeadsTo G₀ n d) {offset : Nat}
    (t : List Byte) (fmt : Option PWCharFormat) (ho : offset ≤ docLength d.fParas)
    (hn : n + d.recorded (.insert offset t fmt) ≤ 512) :
    LeadsTo G₀ (n + d.recorded (.insert offset t fmt)) (d.insert offset t fmt) := by
  unfold PWDocument.recorded at hn ⊢
  unfold PWDocument.insert
  dsimp only at hn ⊢
  by_cases h0 : t = []
  · rw [if_pos h0, if_pos h0]
    exact h
  rw [if_neg h0] at hn
  rw [if_neg h0, if_neg h0]
  split
  · rename_i hnl
    rw [if_pos hnl] at hn
    exact LeadsTo.insertLines fmt _ offset h (newline_not_mem_lines t) ho hn
  · rename_i hnl
    rw [if_neg hnl] at hn
    exact h.insertLine h0 ho fmt hn

theorem LeadsTo.remove {G₀ : List Glyph} {n : Nat} {d : PWDocument} (h : LeadsTo G₀ n d) {offset length : Nat}
    (hr : offset + length ≤ docLength d.fParas) (hn : n + d.recorded (.remove offset length) ≤ 512) :
    LeadsTo G₀ (n + d.recorded (.remove offset length)) (d.remove offset length) := by
  unfold PWDocument.recorded at hn ⊢
  dsimp only at hn ⊢
  by_cases h0 : length = 0 ∨ offset ≥ docLength d.fParas
  · rw [if_pos h0, PWDocument.remove, if_pos h0]
    exact h
  rw [if_neg h0] at hn ⊢
  rw [remove_eq (by omega) hr]
  have hL := h.ready.length_glyphs
  have hl := h.ready.holds.length
  refine h.push (by omega) (h.ready.holds.removeParas d.fDefault hr) ?_
  unfold Undoes
  dsimp only [PWDocument.removal]
  refine ⟨?_, _, h.ready.holds.removal hr, ?_⟩
  · rw [length_map, length_cut (by omega) (by omega)]
    omega
  · rw [map_cut, map_take, map_drop]
    have := insertAt_cut (i := offset + 1) (j := offset + 1 + length) (l := glyphs d.fParas) (by omega) (by omega)
    rw [Nat.add_sub_cancel_left] at this
    exact this.symm

theorem exists_span {i n : Nat} {l : List Cell} (h : i + n ≤ l.length) :
    ∃ A B C, l = A ++ B ++ C ∧ A.length = i ∧ B.length = n ∧ (l.drop i).take n = B := by
  refine ⟨l.take i, (l.drop i).take n, (l.drop i).drop n, ?_, ?_, ?_, rfl⟩
  · rw [append_assoc, take_append_drop, take_append_drop]
  · rw [length_take]
    omega
  · rw [length_take, length_drop]
    omega

theorem map_byte_restyle (f : PWCharFormat) (cs : List Cell) :
    (cs.map (Cell.restyle f)).map Cell.byte = cs.map Cell.byte := by
  rw [map_map]
  exact map_congr_left (fun c _ => by cases c <;> rfl)

theorem LeadsTo.applyFormat {G₀ : List Glyph} {n : Nat} {d : PWDocument} (h : LeadsTo G₀ n d) {offset length : Nat}
    (fmt : PWCharFormat) (hr : offset + length ≤ docLength d.fParas)
    (hn : n + d.recorded (.applyFormat offset length fmt) ≤ 512) :
    ∃ d', d.applyFormat offset length fmt = some d' ∧ LeadsTo G₀ (n + d.recorded (.applyFormat offset length fmt)) d' := by
  unfold PWDocument.recorded at hn ⊢
  unfold PWDocument.applyFormat
  dsimp only at hn ⊢
  by_cases h0 : length = 0
  · rw [if_pos h0, if_pos h0]
    exact ⟨d, rfl, h⟩
  rw [if_neg h0] at hn
  obtain ⟨runs, hruns, hdesc⟩ := captureRuns_spec h.ready.tiled h.ready.ne_nil hr
  rw [if_neg h0, if_neg h0, hruns]
  refine ⟨_, rfl, h.push (by omega) (h.ready.holds.formatLoop d.fDefault fmt offset length) ?_⟩
  obtain ⟨A, M, C, hcs, hA, hM, hspan⟩ := exists_span (i := offset + 1) (n := length) (l := cells d.fParas)
    (by rw [h.ready.holds.length]; omega)
  rw [hspan] at hdesc
  unfold Undoes
  dsimp only
  refine ⟨A.map Cell.glyph, (M.map (Cell.restyle fmt)).map Cell.glyph, C.map Cell.glyph, M, ?_, ?_, hM.symm, ?_, hdesc,
    ?_⟩
  · rw [hcs, show offset + length + 1 = A.length + M.length by omega, ← hA, mapSpan_whole, map_append,
      map_append]
  · rw [length_map, hA]
  · rw [map_glyph_fst, map_byte_restyle]
  · rw [glyphs, hcs, map_append, map_append]

theorem LeadsTo.setParaFormat {G₀ : List Glyph} {n : Nat} {d : PWDocument} (h : LeadsTo G₀ n d) (para : Nat)
    (fmt : PWParaFormat) (hn : n + d.recorded (.setParaFormat para fmt) ≤ 512) :
    LeadsTo G₀ (n + d.recorded (.setParaFormat para fmt)) (d.setParaFormat para fmt) := by
  unfold PWDocument.recorded at hn ⊢
  unfold PWDocument.setParaFormat
  dsimp only at hn ⊢
  by_cases h0 : para ≥ d.fParas.length
  · rw [if_pos h0, if_pos h0]
    exact h
  rw [if_neg h0] at hn
  rw [if_neg h0, if_neg h0]
  obtain ⟨h1, h2, h3⟩ := glyphs_congr (setFormatParas_forall₂ d.fParas para fmt)
  exact h.push (by omega) ⟨h1 h.ready.tiled, h2 h.ready.ne_nil, rfl⟩ h3.symm

/-! ## Whole runs -/

def Edit.InRange (d : PWDocument) : Edit → Prop
  | .insert offset _ _ => offset ≤ docLength d.fParas
  | .remove offset length => offset + length ≤ docLength d.fParas
  | .applyFormat offset length _ => offset + length ≤ docLength d.fParas
  | .setParaFormat para _ => para < d.fParas.length
  | .splitPara offset => offset ≤ docLength d.fParas
  | _ => False

theorem LeadsTo.edit {G₀ : List Glyph} {n : Nat} {d : PWDocument} (h : LeadsTo G₀ n d) {e : Edit} (he : e.InRange d)
    (hn : n + d.recorded e ≤ 512) : ∃ d', d.edit e = some d' ∧ LeadsTo G₀ (n + d.recorded e) d' := by
  cases e with
  | insert offset t fmt => exact ⟨_, rfl, h.insert t fmt he hn⟩
  | remove offset length => exact ⟨_, rfl, h.remove he hn⟩
  | applyFormat offset length fmt => exact h.applyFormat fmt he hn
  | setParaFormat para fmt => exact ⟨_, rfl, h.setParaFormat para fmt hn⟩
  | splitPara offset => exact ⟨_, rfl, h.splitPara offset he (show n + 1 ≤ 512 from hn)⟩
  | _ => exact he.elim

def recordedBy : PWDocument → List Edit → Nat
  | _, []      => 0
  | d, e :: es => d.recorded e + ((d.edit e).map (recordedBy · es)).getD 0

theorem LeadsTo.run {G₀ : List Glyph} {d d' : PWDocument} {es : List Edit} (hr : EditRun Edit.InRange d es d') : ∀ {n : Nat},
    LeadsTo G₀ n d → n + recordedBy d es ≤ 512 → LeadsTo G₀ (n + recordedBy d es) d' := by
  induction hr with
  | nil d => exact fun h _ => h
  | @cons d d₁ d' e es he hd _ ih =>
    intro n h hn
    simp only [recordedBy, hd, Option.map_some, Option.getD_some] at hn ⊢
    obtain ⟨d₂, hd₂, h₂⟩ := h.edit he (by omega)
    cases hd.symm.trans hd₂
    rw [← Nat.add_assoc]
    exact ih h₂ (by omega)

/-! ## What is read off the glyphs -/

theorem Para.Tiled.formatAt {p : Para} (h : p.Tiled) (dflt : PWCharFormat) {k : Nat} (hk : k < p.text.length) :
    (formats p.runs)[k]? = some (p.formatAt dflt k) := by
  obtain ⟨r, hr, h1, h2⟩ := Tiles.exists_run h (k : Int) (by omega) (by omega)
  unfold Para.formatAt
  cases hf : p.runs.find? (fun r => decide ((k : Int) ≥ r.start ∧ (k : Int) < r.rEnd)) with
  | none =>
    have := find?_eq_none.1 hf r hr
    exact absurd (decide_eq_true ⟨h1, h2⟩) this
  | some x =>
    have hx := find?_some hf
    rw [decide_eq_true_eq] at hx
    exact Tiles.getElem?_formats h x k (mem_of_find?_eq_some hf) (by omega) (by omega)

theorem Tiled.formatAt {d : PWDocument} (h : Tiled d.fParas) (hne : d.fParas ≠ []) {offset : Nat} {b : Byte}
    {f : PWCharFormat} (hc : (cells d.fParas)[offset + 1]? = some (.ch b f)) : d.formatAt offset = f := by
  unfold PWDocument.formatAt
  obtain ⟨pre, p, post, k, hps, hloc, hk, hmin⟩ := locate_spec hne offset
  rw [hps] at h hc hmin hloc ⊢
  obtain ⟨hpre, hpp⟩ := tiled_append.1 h
  obtain ⟨hp, hpost⟩ := tiled_cons.1 hpp
  rw [hloc, paraAt_mid]
  have hlt := (List.getElem?_eq_some_iff.1 hc).1
  have hL := docLength_add_one (show pre ++ p :: post ≠ [] by simp)
  rw [h.length_cells] at hlt
  have hke : k < p.text.length := by
    rcases Nat.lt_or_ge k p.text.length with hke | hke
    · exact hke
    have hend : (locate (pre ++ p :: post) offset).2 =
        (paraAt (pre ++ p :: post) (locate (pre ++ p :: post) offset).1).text.length := by
      rw [hloc, paraAt_mid]
      exact Nat.le_antisymm hk hke
    obtain ⟨g, hg⟩ := h.cell_end (by simp) hend _ hc
    cases hg
  rw [show offset + 1 = (cells pre).length + (k + 1) by rw [hpre.length_cells]; omega, cells_append,
    getElem?_append_right (by omega), Nat.add_sub_cancel_left, cells_cons,
    getElem?_append_left (by rw [hp.length_cells]; omega), Para.cells, getElem?_cons_succ,
    getElem?_zipWith, hp.formatAt d.fDefault hke] at hc
  cases ht : p.text[k]? with
  | none =>
    rw [ht] at hc
    cases hc
  | some c =>
    rw [ht] at hc
    cases hc
    rfl

theorem Ready.plainText {d d' : PWDocument} (h : Ready d) (h' : Ready d') (hg : glyphs d'.fParas = glyphs d.fParas) :
    plainText d'.fParas = plainText d.fParas := by
  have hb := congrArg (List.map Prod.fst) hg
  rw [glyphs, glyphs, map_glyph_fst, map_glyph_fst, h.tiled.map_byte h.ne_nil, h'.tiled.map_byte h'.ne_nil,
    List.cons.injEq] at hb
  exact hb.2

theorem Ready.formatAt {d d' : PWDocument} (h : Ready d) (h' : Ready d') (hg : glyphs d'.fParas = glyphs d.fParas)
    {offset : Nat} {b : Byte} (hb : (Writer.plainText d.fParas)[offset]? = some b) (hn : b ≠ newline) :
    d'.formatAt offset = d.formatAt offset := by
  have hbytes := h.tiled.map_byte h.ne_nil
  -- a byte that is no newline is a character in both
  have hch : ∀ {ps : List Para}, glyphs ps = glyphs d.fParas → ∃ f, (cells ps)[offset + 1]? = some (.ch b f) ∧
      (glyphs d.fParas)[offset + 1]? = some (b, some f) := by
    intro ps hps
    have hc : ((cells d.fParas).map Cell.byte)[offset + 1]? = (newline :: Writer.plainText d.fParas)[offset + 1]? := by
      rw [hbytes]
    rw [getElem?_cons_succ, hb, ← map_glyph_fst, ← glyphs, ← hps, getElem?_map] at hc
    obtain ⟨g, hg1, hg2⟩ := Option.map_eq_some_iff.1 hc
    rw [← hps, hg1]
    rw [glyphs, getElem?_map] at hg1
    obtain ⟨c, hc1, hc2⟩ := Option.map_eq_some_iff.1 hg1
    rw [hc1]
    cases c with
    | brk F =>
      rw [← hc2] at hg2
      exact absurd hg2.symm hn
    | ch b' f =>
      rw [← hc2] at hg2
      have : b' = b := hg2
      subst this
      exact ⟨f, rfl, by rw [← hc2, Cell.glyph, if_neg hn]⟩
  obtain ⟨f, hf1, hf2⟩ := hch rfl
  obtain ⟨f', hf1', hf2'⟩ := hch hg
  rw [hf2] at hf2'
  cases hf2'
  rw [h.tiled.formatAt h.ne_nil hf1, h'.tiled.formatAt h'.ne_nil hf1']

/-- `Undo` until `CanUndo` is false. -/
def undoAll (fuel : Nat) (d : PWDocument) : Option PWDocument := drain PWDocument.canUndo PWDocument.undo fuel d

/-- **Undoing everything gives the start back**: its plain text, and the format of every byte of text. -/
theorem undoAll_restores {d d' : PWDocument} {es : List Edit} (htiles : Tiled d.fParas) (hne : d.fParas ≠ [])
    (huser : d.fInternalEdit = false) (hundo : d.canUndo = false) (hrun : EditRun Edit.InRange d es d')
    (hsteps : recordedBy d es ≤ 512) :
    ∃ d₀, (∀ fuel ≥ d'.fUndo.length, undoAll fuel d' = some d₀) ∧ d₀.canUndo = false ∧
      plainText d₀.fParas = plainText d.fParas ∧
      ∀ offset b, (plainText d.fParas)[offset]? = some b → b ≠ newline → d₀.formatAt offset = d.formatAt offset := by
  have hnil : d.fUndo = [] := by
    unfold PWDocument.canUndo at hundo
    cases hu : d.fUndo with
    | nil => rfl
    | cons s ss =>
      rw [hu] at hundo
      cases hundo
  have hready : Ready d := ⟨htiles, hne, huser⟩
  have hstart : LeadsTo (glyphs d.fParas) 0 d := ⟨hready, by rw [hnil]; rfl, by rw [hnil]; rfl⟩
  have hend := LeadsTo.run hrun hstart (by omega)
  have hmore : ∀ d : PWDocument, d.canUndo = true ↔ d.fUndo ≠ [] := fun d => by
    unfold PWDocument.canUndo
    cases d.fUndo <;> simp
  have hdrain : ∀ fuel ≥ d'.fUndo.length, ∃ d₀, undoAll fuel d' = some d₀ ∧ d₀.canUndo = false ∧ Ready d₀ ∧
      glyphs d₀.fParas = glyphs d.fParas := fun fuel hf =>
    LeadsBack.drain PWDocument.fUndo (fun d => glyphs d.fParas) Ready hmore
      (fun d s ss h hs v' hv => undo_spec h hs hv) fuel d' hend.ready hend.leads hf
  obtain ⟨d₀, hd₀, hcan, h₀, hg⟩ := hdrain _ (Nat.le_refl _)
  exact ⟨d₀, fun fuel hf => drain_mono hf hd₀, hcan, hready.plainText h₀ hg,
    fun offset b hb hn => hready.formatAt h₀ hg hb hn⟩

def insertThenRemove : List Edit := [.insert 0 [byteA, newline, byteB] none, .remove 1 2]

theorem undoAll_restores_insertThenRemove : ∃ d' d₀, EditRun Edit.InRange (PWDocument.new noFamily) insertThenRemove d' ∧
    undoAll d'.fUndo.length d' = some d₀ ∧ plainText d₀.fParas = plainText (PWDocument.new noFamily).fParas := by
  have hrun : EditRun Edit.InRange (PWDocument.new noFamily) insertThenRemove _ :=
    .cons (show 0 ≤ docLength _ by decide) rfl (.cons (show 1 + 2 ≤ docLength _ by decide) rfl (.nil _))
  have htiles : Tiled (PWDocument.new noFamily).fParas := fun p hp => by
    cases mem_singleton.1 hp
    exact ⟨rfl, Int.le_refl 0, rfl⟩
  have hall := undoAll_restores htiles (cons_ne_nil _ _) rfl rfl hrun (by decide)
  obtain ⟨d₀, hd₀, -, htext, -⟩ := hall
  exact ⟨_, d₀, hrun, hd₀ _ (Nat.le_refl _), htext⟩

end Writer
end Prose
