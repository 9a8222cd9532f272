import Prose.WriterRemoveUndo
/-!
# WriterTop — the step on top of the undo stack

In a document made by edits alone the step on top of the undo stack describes what the last edit left in the paragraphs:
the text it put in, the span it took out, the formats it replaced.
-/
namespace Prose
namespace Writer

open Splice List
open Relation (ReflTransGen)

/-- What a step on top of the undo stack says about the paragraphs.  An insertion recorded behind the end of the document
says that it is. -/
def TopStep (s : UndoStep) (ps : List Para) : Prop :=
  match s.kind with
  | .insert => s.text ≠ [] ∧ s.length = s.text.length ∧ (docLength ps < s.offset + s.length ∨
      ∃ A B C, cells ps = A ++ B ++ C ∧ A.length = s.offset + 1 ∧ B.map Cell.byte = s.text ∧
        (newline ∉ s.text ∨ s.coalesce = false ∧ B = [.brk (lastFormat {} A)]))
  | .remove => 0 < s.length ∧ s.offset ≤ docLength ps ∧ ∃ span, RemovedAt s span ∧
      (∀ b f, Cell.ch b f ∈ span → b ≠ newline) ∧ ∀ g img, s.images.get? g = some img →
        ∃ h : Nat, s.offset ≤ g ∧ g ≤ s.offset + h ∧ ∃ b f, span[h]? = some (.ch b f)
  | .format => ∃ A M C span, cells ps = A ++ M ++ C ∧ A.length = s.offset + 1 ∧ RestyledAt s span M
  | .paraformat => s.offset < ps.length

/-- The step on top of the undo stack, if there is one, describes the document. -/
def PWDocument.TopDescribes (d : PWDocument) : Prop := ∀ s rest, d.fUndo = s :: rest → TopStep s d.fParas

/-- A document between two calls, with all that holds of its paragraphs. -/
structure Sound (d : PWDocument) : Prop where
  ready : Ready d
  keyed : ∀ p ∈ d.fParas, p.Keyed
  oneLine : ∀ p ∈ d.fParas, p.OneLine

theorem Reachable.sound {plain : FontFamily} {d : PWDocument} (h : Reachable plain d) : Sound d :=
  ⟨⟨h.tiled, h.ne_nil, h.user⟩, h.keyed, h.oneLine⟩

theorem DocStep.sound {d d' : PWDocument} (h : DocStep d d') (hs : Sound d) : Sound d' :=
  ⟨⟨paraInv_tiled.step h.parasStep hs.ready.tiled, h.parasStep.ne_nil hs.ready.ne_nil, h.settings.internal.trans hs.ready.user⟩,
    paraInv_keyed.step h.parasStep hs.keyed, paraInv_oneLine.step h.parasStep hs.oneLine⟩

theorem pushed {d : PWDocument} (hu : d.fInternalEdit = false) {ps : List Para} {n : Nat} {s : UndoStep} (h : TopStep s ps) :
    ({ d with fParas := ps, fNextParaId := n }.pushUndo s).TopDescribes := by
  intro t rest ht
  obtain ⟨rest', hrest⟩ := pushUndo_fUndo (d := { d with fParas := ps, fNextParaId := n }) hu s
  rw [hrest, List.cons.injEq] at ht
  rw [pushUndo_fParas, ← ht.1]
  exact h

theorem map_byte_chars (f : PWCharFormat) (t : List Byte) : (t.map (Cell.ch · f)).map Cell.byte = t := by
  rw [map_map]
  exact map_id' t

theorem Sound.insertLine {d : PWDocument} (hs : Sound d) (ht : d.TopDescribes) (offset : Nat) {t : List Byte}
    (fmt : Option PWCharFormat) (h0 : t ≠ []) (hn : newline ∉ t) : (d.insertLine offset t fmt).TopDescribes := by
  have hh := hs.ready.holds.insertParas d.fDefault offset fmt h0
  have hL := hs.ready.holds.length
  have hL' := hh.length
  generalize fmt.getD ((paraAt d.fParas (locate d.fParas offset).1).formatForInsert d.fDefault (locate d.fParas offset).2) = f
    at hh hL'
  rw [length_insertAt, length_map] at hL'
  unfold PWDocument.insertLine
  by_cases hc : coalesces d offset t = true
  · rw [if_pos hc]
    obtain ⟨top, rest, hu, hk, htc, hto⟩ := coalesces_iff hc
    intro s rest' hs'
    dsimp only at hs' ⊢
    rw [hu, modifyHead_cons, List.cons.injEq] at hs'
    rw [← hs'.1]
    have htop := ht top rest hu
    unfold TopStep at htop ⊢
    rw [hk] at htop
    dsimp only
    rw [hk]
    dsimp only at htop ⊢
    obtain ⟨-, hlen, hout | ⟨A, B, C, hcs, hA, hB, htext⟩⟩ := htop
    · exact ⟨by simp [h0], by rw [length_append]; omega, Or.inl (by omega)⟩
    have hBl : B.length = top.length := by rw [hlen, ← hB, length_map]
    have hin := congrArg List.length hcs
    rw [length_append, length_append] at hin
    rw [hcs, Nat.min_eq_left (by omega), show offset + 1 = (A ++ B).length by rw [length_append]; omega,
      insertAt_length rfl] at hh
    refine ⟨by simp [h0], by rw [length_append]; omega, Or.inr ⟨A, B ++ t.map (Cell.ch · f), C, ?_, hA, ?_, ?_⟩⟩
    · rw [hh.cells]
      simp only [append_assoc]
    · rw [map_append, hB, map_byte_chars]
    · refine Or.inl (fun hm => ?_)
      rcases htext with htext | ⟨hcf, -⟩
      · exact (mem_append.1 hm).elim htext hn
      · rw [htc] at hcf
        cases hcf
  · rw [if_neg hc]
    refine pushed hs.ready.user ?_
    unfold TopStep
    dsimp only
    refine ⟨h0, rfl, ?_⟩
    by_cases ho : offset ≤ docLength d.fParas
    · rw [Nat.min_eq_left ho] at hh
      refine Or.inr ⟨(cells d.fParas).take (offset + 1), t.map (Cell.ch · f), (cells d.fParas).drop (offset + 1), hh.cells, ?_,
        map_byte_chars f t, Or.inl hn⟩
      rw [length_take]
      omega
    · exact Or.inl (by omega)

theorem Sound.splitPara {d : PWDocument} (hs : Sound d) (offset : Nat) : (d.splitPara offset).TopDescribes := by
  have hh := hs.ready.holds.splitParas d.fDefault offset d.fNextParaId
  have hL := hs.ready.holds.length
  have hL' := hh.length
  rw [length_insertAt, length_singleton] at hL'
  refine pushed hs.ready.user ?_
  unfold TopStep
  dsimp only
  refine ⟨cons_ne_nil _ _, rfl, ?_⟩
  by_cases ho : offset ≤ docLength d.fParas
  · rw [Nat.min_eq_left ho] at hh
    refine Or.inr ⟨(cells d.fParas).take (offset + 1), [.brk (paraFormatAt d.fParas offset)],
      (cells d.fParas).drop (offset + 1), hh.cells, ?_, rfl, Or.inr ⟨rfl, ?_⟩⟩
    · rw [length_take]
      omega
    · rw [hs.ready.holds.paraFormatAt, Nat.min_eq_left ho]
  · exact Or.inl (by omega)

theorem marks_iff_cells : ∀ {ps : List Para}, Tiled ps → ∀ (h : Nat), (marks ps)[h]? = some true ↔
    ∃ b f, (cells ps)[h + 1]? = some (.ch b f)
  | [], _, _ => by
    refine ⟨fun hm => ?_, fun h => ?_⟩
    · cases hm
    · obtain ⟨_, _, hc⟩ := h
      cases hc
  | p :: ps, ht, h => by
    obtain ⟨hp, hps⟩ := tiled_cons.1 ht
    have hl := hp.length_cells
    have hf := hp.length_formats
    rw [marks_cons, cells_cons]
    rcases Nat.lt_trichotomy h p.text.length with hlt | rfl | hgt
    · rw [getElem?_append_left (by rw [Para.length_marks]; omega), Para.marks_getElem?, if_pos hlt,
        getElem?_append_left (by omega), Para.cells, getElem?_cons_succ, getElem?_zipWith,
        getElem?_eq_getElem hlt, getElem?_eq_getElem (by omega)]
      exact ⟨fun _ => ⟨_, _, rfl⟩, fun _ => rfl⟩
    · rw [getElem?_append_left (by rw [Para.length_marks]; omega), Para.marks_getElem?, if_neg (by omega),
        if_pos rfl, getElem?_append_right (by omega), hl, Nat.sub_self]
      refine ⟨fun hm => ?_, fun h => ?_⟩
      · cases hm
      · obtain ⟨b, f, hc⟩ := h
        cases ps <;> cases hc
    · rw [getElem?_append_right (by rw [Para.length_marks]; omega), Para.length_marks,
        getElem?_append_right (by omega), hl,
        show h + 1 - (p.text.length + 1) = h - (p.text.length + 1) + 1 by omega]
      exact marks_iff_cells hps _

theorem Sound.remove {d : PWDocument} (hs : Sound d) {offset length : Nat} (h0 : 0 < length)
    (ho : offset < docLength d.fParas) : (d.remove offset length).TopDescribes := by
  obtain ⟨hc0, hcr⟩ := clipLength_pos h0 ho
  rw [remove_clip h0 ho]
  generalize clipLength d.fParas offset length = l at hc0 hcr
  have hh := hs.ready.holds
  have hL := hh.length
  have hL' := (hh.removeParas d.fDefault hcr).length
  rw [length_cut (by omega) (by omega)] at hL'
  rw [remove_eq hc0 hcr]
  refine pushed hs.ready.user ?_
  unfold TopStep
  dsimp only [PWDocument.removal]
  refine ⟨hc0, by omega, _, hh.removal hcr, fun b f hm => ?_, fun g img hg => ?_⟩
  · obtain ⟨p, hp, hb⟩ := mem_cells (mem_of_mem_drop (mem_of_mem_take hm))
    exact fun hn => hs.oneLine p hp (hn ▸ hb)
  · obtain ⟨e, hsaved⟩ := savedImages_removeParas hs.ready.ne_nil hs.keyed d.fDefault hcr
    obtain ⟨from', hf⟩ := hsaved.sound g img hg
    have hkey := hf.key
    obtain ⟨h, h1, h2, h3, h4⟩ := hf.text
    obtain ⟨b, f, hbf⟩ := (marks_iff_cells hs.ready.tiled h).1 h4
    refine ⟨h - offset, by omega, by omega, b, f, ?_⟩
    rw [getElem?_take_of_lt (by omega), getElem?_drop, ← hbf]
    congr 1
    omega

theorem Sound.applyFormat {d d' : PWDocument} (hs : Sound d) {offset length : Nat} {fmt : PWCharFormat} (h0 : 0 < length)
    (h : d.applyFormat offset length fmt = some d') : d'.TopDescribes := by
  have hh := hs.ready.holds
  have hL := hh.length
  have hr : offset + length ≤ docLength d.fParas := by
    by_contra hc
    rw [PWDocument.applyFormat, if_neg (by omega), captureRuns_eq_none hs.ready.ne_nil (by omega) h0] at h
    cases h
  obtain ⟨runs, hruns, hdesc⟩ := captureRuns_spec hs.ready.tiled hs.ready.ne_nil hr
  rw [PWDocument.applyFormat, if_neg (by omega), hruns] at h
  cases h
  refine pushed hs.ready.user ?_
  obtain ⟨A, M, C, hcs, hA, hM, hspan⟩ := exists_span (i := offset + 1) (n := length) (l := cells d.fParas) (by omega)
  have hfmt := (hh.formatLoop d.fDefault fmt offset length).cells
  rw [hcs, show offset + length + 1 = A.length + M.length by omega, ← hA, mapSpan_whole] at hfmt
  rw [hspan] at hdesc
  unfold TopStep
  dsimp only
  exact ⟨A, M.map (Cell.restyle fmt), C, M, hfmt, hA, rfl, hM.symm, length_map _, hdesc⟩

/-- **Every change keeps the top of the undo stack describing the document.** -/
theorem DocStep.topDescribes {d d' : PWDocument} (h : DocStep d d') (hs : Sound d) (ht : d.TopDescribes) :
    d'.TopDescribes := by
  cases h with
  | insertLine offset fmt h0 hn => exact hs.insertLine ht offset fmt h0 hn
  | splitPara offset => exact hs.splitPara offset
  | remove h0 ho => exact hs.remove h0 ho
  | applyFormat h0 hd => exact hs.applyFormat h0 hd
  | @setParaFormat para fmt hp =>
    unfold PWDocument.setParaFormat
    rw [if_neg (by omega)]
    refine pushed hs.ready.user ?_
    unfold TopStep setFormatParas
    dsimp only
    rw [length_modify]
    exact hp
  | @setImage i k img hk =>
    -- no step is pushed, and no cell changes
    have hcells : cells (setImageParas d.fParas i k img) = cells d.fParas :=
      (hs.ready.holds.congr (forall₂_modify (fun _ => ⟨rfl, rfl, rfl⟩) (fun _ => ⟨rfl, rfl, rfl⟩) _ _)).cells
    have hdoc : docLength (setImageParas d.fParas i k img) = docLength d.fParas := by
      rw [docLength, setImageParas, byteSpan_modify (fun _ => by rfl)]
      rfl
    have hlen : (setImageParas d.fParas i k img).length = d.fParas.length := length_modify _ _ _
    intro s rest hs'
    have htop := ht s rest hs'
    unfold TopStep at htop ⊢
    dsimp only
    rw [hcells, hdoc, hlen]
    exact htop

end Writer
end Prose
