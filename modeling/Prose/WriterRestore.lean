import Prose.WriterSplice
/-!
# WriterRestore — what `Undo` puts back

An edit made by `Undo` or `Redo` touches the paragraphs and nothing else of the document (`SameShell`).  The runs of a
step restyle a span of cells back to the span they describe; undoing a removal puts its span back, with a break of the
paragraph it lands in for every separator (`Cell.reborn`).
-/
namespace Prose
namespace Writer

open Splice List

/-! ## Edits made by `Undo` and `Redo` -/

/-- The flags `Undo` and `Redo` set around their own edits. -/
def PWDocument.Internal (d : PWDocument) : Prop := d.fInternalEdit = true ∧ d.fCoalesce = false

structure SameShell (d d' : PWDocument) : Prop where
  dflt : d'.fDefault = d.fDefault
  undo : d'.fUndo = d.fUndo
  redo : d'.fRedo = d.fRedo
  styles : d'.fStyles = d.fStyles
  coalesce : d'.fCoalesce = d.fCoalesce
  header : d'.fHeader = d.fHeader
  footer : d'.fFooter = d.fFooter
  internal : d'.fInternalEdit = d.fInternalEdit

theorem SameShell.refl (d : PWDocument) : SameShell d d := ⟨rfl, rfl, rfl, rfl, rfl, rfl, rfl, rfl⟩

theorem SameShell.trans {a b c : PWDocument} (h : SameShell a b) (h' : SameShell b c) : SameShell a c :=
  ⟨h'.dflt.trans h.dflt, h'.undo.trans h.undo, h'.redo.trans h.redo, h'.styles.trans h.styles,
    h'.coalesce.trans h.coalesce, h'.header.trans h.header, h'.footer.trans h.footer, h'.internal.trans h.internal⟩

theorem SameShell.isInternal {d d' : PWDocument} (h : SameShell d d') (hi : d.Internal) : d'.Internal :=
  ⟨h.internal.trans hi.1, h.coalesce.trans hi.2⟩

theorem sameShell_pushUndo {d : PWDocument} (hi : d.Internal) (ps : List Para) (n : Nat) (s : UndoStep) :
    SameShell d ({ d with fParas := ps, fNextParaId := n }.pushUndo s) := by
  unfold PWDocument.pushUndo
  rw [if_pos hi.1]
  exact ⟨rfl, rfl, rfl, rfl, rfl, rfl, rfl, rfl⟩

theorem coalesces_of_internal {d : PWDocument} (hi : d.Internal) (offset : Nat) (t : List Byte) :
    coalesces d offset t = false := by
  unfold coalesces
  split
  · rfl
  · simp [hi.2]

theorem sameShell_insertLine {d : PWDocument} (hi : d.Internal) (offset : Nat) (t : List Byte)
    (fmt : Option PWCharFormat) : SameShell d (d.insertLine offset t fmt) := by
  unfold PWDocument.insertLine
  rw [coalesces_of_internal hi, if_neg Bool.false_ne_true]
  exact sameShell_pushUndo hi _ _ _

theorem sameShell_splitPara {d : PWDocument} (hi : d.Internal) (offset : Nat) : SameShell d (d.splitPara offset) :=
  sameShell_pushUndo hi _ _ _

theorem sameShell_insertSegment {d : PWDocument} (hi : d.Internal) (offset : Nat) (t : List Byte)
    (fmt : Option PWCharFormat) : SameShell d (d.insertSegment offset t fmt) := by
  unfold PWDocument.insertSegment
  split
  · exact SameShell.refl d
  · exact sameShell_insertLine hi offset t fmt

theorem sameShell_insertLines (fmt : Option PWCharFormat) : ∀ (ls : List (List Byte)) {d : PWDocument} (at' : Nat),
    d.Internal → SameShell d (insertLines fmt d at' ls)
  | [], d, _, _ => SameShell.refl d
  | [seg], _, at', hi => sameShell_insertSegment hi at' seg fmt
  | seg :: l :: ls, _, at', hi => by
    have h1 := sameShell_insertSegment hi at' seg fmt
    have h2 := h1.trans (sameShell_splitPara (h1.isInternal hi) (at' + seg.length))
    exact h2.trans (sameShell_insertLines fmt (l :: ls) (at' + seg.length + 1) (h2.isInternal hi))

theorem sameShell_insert {d : PWDocument} (hi : d.Internal) (offset : Nat) (t : List Byte) (fmt : Option PWCharFormat) :
    SameShell d (d.insert offset t fmt) := by
  unfold PWDocument.insert
  split
  · exact SameShell.refl d
  · split
    · exact sameShell_insertLines fmt _ offset hi
    · exact sameShell_insertLine hi offset t fmt

theorem sameShell_remove {d : PWDocument} (hi : d.Internal) (offset length : Nat) :
    SameShell d (d.remove offset length) := by
  unfold PWDocument.remove
  split
  · exact SameShell.refl d
  · exact sameShell_pushUndo hi _ _ _

/-! ## `ApplyFormat` and the runs of a step -/

theorem Holds.applyFormat {d : PWDocument} {cs : List Cell} (h : Holds d.fParas cs) (offset length : Nat)
    (hr : offset + length ≤ Writer.docLength d.fParas) (fmt : PWCharFormat) :
    ∃ d', d.applyFormat offset length fmt = some d' ∧
      Holds d'.fParas (mapSpan (offset + 1) (offset + length + 1) (Cell.restyle fmt) cs) := by
  unfold PWDocument.applyFormat
  by_cases h0 : length = 0
  · subst h0
    rw [if_pos rfl, mapSpan_outside _ (by omega)]
    exact ⟨d, rfl, h⟩
  · obtain ⟨runs, hruns, -⟩ := captureRuns_spec h.tiled h.ne_nil hr
    rw [if_neg h0, hruns]
    exact ⟨_, rfl, by rw [pushUndo_fParas]; exact h.formatLoop d.fDefault fmt offset length⟩

theorem sameShell_applyFormat {d d' : PWDocument} (hi : d.Internal) {offset length : Nat} {fmt : PWCharFormat}
    (h : d.applyFormat offset length fmt = some d') : SameShell d d' := by
  unfold PWDocument.applyFormat at h
  split at h
  · rw [← Option.some.inj h]
    exact SameShell.refl d
  · obtain ⟨runs, -, rfl⟩ := Option.map_eq_some_iff.1 h
    exact sameShell_pushUndo hi _ _ _

/-- A list of runs over the cells behind `base`, one restyling after the other. -/
def restyleRuns (base : Nat) (rs : List PWRun) (cs : List Cell) : List Cell :=
  rs.foldl (fun cs r => mapSpan (base + r.start.toNat) (base + r.rEnd.toNat) (Cell.restyle r.format) cs) cs

/-- The runs lie in a span of `n` bytes. -/
def Within (n : Nat) (rs : List PWRun) : Prop := ∀ r ∈ rs, 0 ≤ r.start ∧ 0 < r.length ∧ r.rEnd ≤ n

theorem Describes.within {rs : List PWRun} {span : List Cell} (h : Describes 0 rs span) : Within span.length rs :=
  fun r hr => by
    obtain ⟨h1, h2, h3⟩ := h.bounds r hr
    exact ⟨by omega, h2, by omega⟩

theorem applyRuns_spec (offset : Nat) {n : Nat} : ∀ (rs : List PWRun) {d : PWDocument} {cs : List Cell}, d.Internal →
    Holds d.fParas cs → Within n rs → offset + n ≤ docLength d.fParas →
    ∃ d', applyRuns offset rs d = some d' ∧ Holds d'.fParas (restyleRuns (offset + 1) rs cs) ∧ SameShell d d'
  | [], d, cs, _, h, _, _ => ⟨d, rfl, h, SameShell.refl d⟩
  | r :: rs, d, cs, hi, h, hw, hn => by
    obtain ⟨h1, h2, h3⟩ := hw r mem_cons_self
    have he : r.rEnd = r.start + r.length := rfl
    obtain ⟨d₁, hd₁, hh₁⟩ := h.applyFormat (offset + r.start).toNat r.length.toNat (by omega)
      r.format
    have hs₁ := sameShell_applyFormat hi hd₁
    have hL : docLength d₁.fParas = docLength d.fParas := by
      have := hh₁.length
      rw [length_mapSpan, h.length] at this
      omega
    rw [show (offset + r.start).toNat + 1 = offset + 1 + r.start.toNat by omega,
      show (offset + r.start).toNat + r.length.toNat + 1 = offset + 1 + r.rEnd.toNat by omega] at hh₁
    obtain ⟨d', hd', hh', hs'⟩ := applyRuns_spec offset rs (hs₁.isInternal hi) hh₁
      (fun x hx => hw x (mem_cons_of_mem _ hx)) (by rw [hL]; exact hn)
    exact ⟨d', by rw [applyRuns, if_pos h2, hd₁]; exact hd', hh', hs₁.trans hs'⟩

theorem restyleRuns_middle {A C : List Cell} : ∀ (rs : List PWRun) {M : List Cell}, Within M.length rs →
    restyleRuns A.length rs (A ++ M ++ C) = A ++ restyleRuns 0 rs M ++ C
  | [], _, _ => rfl
  | r :: rs, M, hw => by
    obtain ⟨h1, h2, h3⟩ := hw r mem_cons_self
    have ih := restyleRuns_middle (A := A) (C := C) rs
      (M := mapSpan r.start.toNat r.rEnd.toNat (Cell.restyle r.format) M)
      (fun x hx => by rw [length_mapSpan]; exact hw x (mem_cons_of_mem _ hx))
    unfold restyleRuns at ih ⊢
    rw [foldl_cons, foldl_cons, mapSpan_middle _ (by omega), ih, Nat.zero_add, Nat.zero_add]

/-- The byte of `m` with the format of `s`. -/
def Cell.adopt : Cell → Cell → Cell
  | .ch b _, .ch _ f => .ch b f
  | m, _ => m

theorem restyleRuns_not_covered {k : Nat} : ∀ (rs : List PWRun) {M : List Cell},
    (∀ r ∈ rs, ¬ (r.start.toNat ≤ k ∧ k < r.rEnd.toNat)) → (restyleRuns 0 rs M)[k]? = M[k]?
  | [], _, _ => rfl
  | r :: rs, M, h => by
    have ih := restyleRuns_not_covered rs (M := mapSpan (0 + r.start.toNat) (0 + r.rEnd.toNat) (Cell.restyle r.format) M)
      (fun x hx => h x (mem_cons_of_mem _ hx))
    have hr := h r mem_cons_self
    rw [restyleRuns, foldl_cons]
    rw [restyleRuns] at ih
    rw [ih, mapSpan_getElem?]
    cases M[k]? with
    | none => rfl
    | some c => rw [Option.map_some, if_neg (by omega)]

theorem restyleRuns_covered {k : Nat} {span : List Cell} : ∀ (rs : List PWRun) {M : List Cell},
    (∀ r ∈ rs, r.start.toNat ≤ k → k < r.rEnd.toNat → ∃ b, span[k]? = some (.ch b r.format)) →
    (∃ r ∈ rs, r.start.toNat ≤ k ∧ k < r.rEnd.toNat) → (restyleRuns 0 rs M)[k]? = (List.zipWith Cell.adopt M span)[k]?
  | [], _, _, h => by obtain ⟨r, hr, -⟩ := h; cases hr
  | r :: rs, M, hf, h => by
    have hf' := fun x hx => hf x (mem_cons_of_mem _ hx)
    by_cases ht : ∃ x ∈ rs, x.start.toNat ≤ k ∧ k < x.rEnd.toNat
    · rw [restyleRuns, foldl_cons]
      refine (restyleRuns_covered rs hf' ht).trans ?_
      -- a later run overwrites what `r` did
      obtain ⟨x, hx, h1, h2⟩ := ht
      obtain ⟨b, hb⟩ := hf' x hx h1 h2
      rw [getElem?_zipWith, getElem?_zipWith, mapSpan_getElem?, hb]
      cases M[k]? with
      | none => rfl
      | some c =>
        simp only [Option.map_some, Option.some.injEq]
        split
        · cases c <;> rfl
        · rfl
    -- `r` is the last run that covers the byte
    · obtain ⟨x, hx, h1, h2⟩ := h
      have hxr : x = r := by
        rcases mem_cons.1 hx with hx | hx
        · exact hx
        · exact absurd ⟨x, hx, h1, h2⟩ ht
      subst hxr
      obtain ⟨b, hb⟩ := hf x mem_cons_self h1 h2
      have hn := restyleRuns_not_covered rs
        (M := mapSpan (0 + x.start.toNat) (0 + x.rEnd.toNat) (Cell.restyle x.format) M) (k := k)
        (fun y hy hc => ht ⟨y, hy, hc⟩)
      rw [restyleRuns, foldl_cons]
      rw [restyleRuns] at hn
      rw [hn, mapSpan_getElem?, getElem?_zipWith, hb]
      cases M[k]? with
      | none => rfl
      | some c =>
        rw [Option.map_some, if_pos (by omega)]
        cases c <;> rfl

/-- **Described runs give a span of the same length its described formats.** -/
theorem Describes.restyleRuns {rs : List PWRun} {span M : List Cell} (h : Describes 0 rs span)
    (hM : M.length = span.length) : Writer.restyleRuns 0 rs M = List.zipWith Cell.adopt M span := by
  apply ext_getElem?
  intro k
  have hcov : ∀ r ∈ rs, r.start.toNat ≤ k ∧ k < r.rEnd.toNat ↔ r.start ≤ (0 + k : Nat) ∧ ((0 + k : Nat) : Int) < r.rEnd :=
    fun r hr => by
      have := h.bounds r hr
      omega
  have hf : ∀ r ∈ rs, r.start.toNat ≤ k → k < r.rEnd.toNat → ∃ b, span[k]? = some (.ch b r.format) :=
    fun r hr h1 h2 => h.format r hr k ((hcov r hr).1 ⟨h1, h2⟩).1 ((hcov r hr).1 ⟨h1, h2⟩).2
  by_cases hk : ∃ r ∈ rs, r.start.toNat ≤ k ∧ k < r.rEnd.toNat
  · exact restyleRuns_covered rs hf hk
  rw [restyleRuns_not_covered rs (fun r hr hc => hk ⟨r, hr, hc⟩), getElem?_zipWith]
  cases hm : M[k]? with
  | none => rfl
  | some m =>
    have hlt := (List.getElem?_eq_some_iff.1 hm).1
    obtain ⟨c, hc⟩ : ∃ c, span[k]? = some c := ⟨_, getElem?_eq_getElem (by omega)⟩
    rw [hc]
    cases c with
    | brk f => cases m <;> rfl
    | ch b f =>
      obtain ⟨r, hr, hcr⟩ := h.covers k b f hc
      exact absurd ⟨r, hr, (hcov r hr).2 hcr⟩ hk

/-! ## Images do not show in the cells -/

theorem Holds.congr {ps ps' : List Para} {cs : List Cell} (h : Holds ps cs)
    (hc : List.Forall₂ (fun p q => q.text = p.text ∧ q.runs = p.runs ∧ q.format = p.format) ps ps') : Holds ps' cs := by
  have key : ∀ {ps ps' : List Para}, List.Forall₂ (fun p q => q.text = p.text ∧ q.runs = p.runs ∧ q.format = p.format)
      ps ps' → (Tiled ps → Tiled ps') ∧ Writer.cells ps' = Writer.cells ps := by
    intro ps ps' hc
    induction hc with
    | nil => exact ⟨id, rfl⟩
    | @cons p q ps ps' hpq _ ih =>
      obtain ⟨h1, h2, h3⟩ := hpq
      constructor
      · intro ht
        obtain ⟨hp, hps⟩ := tiled_cons.1 ht
        refine tiled_cons.2 ⟨?_, ih.1 hps⟩
        unfold Para.Tiled at hp ⊢
        rwa [h1, h2]
      · rw [cells_cons, cells_cons, ih.2, Para.cells, Para.cells, h1, h2, h3]
  obtain ⟨h1, h2⟩ := key hc
  have hn : ps' ≠ [] := fun hn => h.ne_nil (by cases hc <;> simp_all)
  exact ⟨h1 h.tiled, hn, h2.trans h.cells⟩

theorem Holds.placeImage {ps : List Para} {cs : List Cell} (h : Holds ps cs) (offset : Nat) (img : PWImage) :
    Holds (placeImage ps offset img) cs :=
  h.congr (forall₂_modify (fun _ => ⟨rfl, rfl, rfl⟩) (fun _ => ⟨rfl, rfl, rfl⟩) _ _)

theorem Holds.placeImages {ps : List Para} {cs : List Cell} (h : Holds ps cs) (images : ImageTable) :
    Holds (placeImages images ps) cs := by
  have key : ∀ (l : List (Int × PWImage)) {ps : List Para}, Holds ps cs →
      Holds (l.foldl (fun ps e => Writer.placeImage ps e.1.toNat e.2) ps) cs := by
    intro l
    induction l with
    | nil => exact fun h => h
    | cons e l ih => exact fun h => ih (h.placeImage e.1.toNat e.2)
  exact key images.entries h

/-! ## The switch of `Undo` -/

/-- A cell of a removed span as it comes back into a paragraph of format `F`. -/
def Cell.reborn (F : PWParaFormat) : Cell → Cell
  | .brk _  => .brk F
  | .ch b f => if b = newline then .brk F else .ch b f

theorem Inserted.adopt {F : PWParaFormat} {fmt : Option PWCharFormat} (f : PWCharFormat) : ∀ {span B : List Cell},
    Inserted F fmt (span.map Cell.byte) B →
    List.zipWith Cell.adopt (B.map (Cell.restyle f)) span = span.map (Cell.reborn F)
  | [], _, h => by
    cases h
    rfl
  | c :: span, _, h => by
    cases h with
    | @cons _ x _ _ hx hB =>
      rw [map_cons, zipWith_cons_cons, map_cons, Inserted.adopt f hB]
      congr 1
      cases c with
      | brk G =>
        rw [Cell.byte, if_pos rfl] at hx
        rw [hx]
        rfl
      | ch b g =>
        rw [Cell.byte] at hx
        rw [Cell.reborn]
        split at hx
        · rename_i hb
          rw [if_pos hb, hx]
          rfl
        rename_i hb
        obtain ⟨e, rfl, -⟩ := hx
        rw [if_neg hb]
        rfl

/-- A step that undoes the removal of `span` behind offset `o`. -/
structure RemovedAt (s : UndoStep) (span : List Cell) : Prop where
  kind : s.kind = .remove
  text : s.text = span.map Cell.byte
  length : s.length = span.length
  runs : Describes 0 s.runs span

theorem exists_insertAt {i : Nat} {cs : List Cell} (h : i ≤ cs.length) :
    ∃ A C, A.length = i ∧ cs = A ++ C ∧ ∀ M, insertAt i M cs = A ++ M ++ C :=
  ⟨cs.take i, cs.drop i, by rw [length_take]; omega, (take_append_drop i cs).symm, fun _ => rfl⟩

/-- The text of a removal back in, with its runs: the undoing of a removal but for the images. -/
def PWDocument.putBack (d : PWDocument) (s : UndoStep) : Option PWDocument :=
  ((d.insert s.offset s.text none).applyFormat s.offset s.length
    ((d.insert s.offset s.text none).formatAt s.offset)).bind (applyRuns s.offset s.runs)

theorem undoStep_remove {s : UndoStep} (hk : s.kind = .remove) (d : PWDocument) :
    d.undoStep s = (d.putBack s).map (fun d' => { d' with fParas := placeImages s.images d'.fParas }) := by
  unfold PWDocument.undoStep PWDocument.putBack
  rw [hk]
  dsimp only
  rw [Option.map_bind]
  rfl

/-- **Undoing a removal puts its span back** at its offset. -/
theorem RemovedAt.putBack {d : PWDocument} {s : UndoStep} {cs span : List Cell} (hs : RemovedAt s span) (hi : d.Internal)
    (h : Holds d.fParas cs) (ho : s.offset ≤ docLength d.fParas) :
    ∃ d', d.putBack s = some d' ∧ SameShell d d' ∧
      Holds d'.fParas (insertAt (s.offset + 1) (span.map (Cell.reborn (paraFormatAt d.fParas s.offset))) cs) := by
  obtain ⟨B, hB, h₁⟩ := h.insert s.offset s.text none
  have hs₁ := sameShell_insert hi s.offset s.text none
  have hL := h.length
  have hL₁ := h₁.length
  rw [Nat.min_eq_left ho] at h₁ hL₁
  rw [length_insertAt] at hL₁
  have hBl : B.length = span.length := by rw [hB.length, hs.text, length_map]
  have hsl := hs.length
  unfold PWDocument.putBack
  generalize d.insert s.offset s.text none = d₁ at h₁ hs₁ hL₁ ⊢
  generalize d₁.formatAt s.offset = f
  -- the whole span in one format, then the saved runs
  obtain ⟨d₂, hd₂, h₂⟩ := h₁.applyFormat s.offset s.length (by omega) f
  have hs₂ := hs₁.trans (sameShell_applyFormat (hs₁.isInternal hi) hd₂)
  obtain ⟨d₃, hd₃, h₃, hs₃⟩ := applyRuns_spec s.offset s.runs (hs₂.isInternal hi) h₂ hs.runs.within (by
    have := h₂.length
    rw [length_mapSpan, length_insertAt] at this
    omega)
  refine ⟨d₃, by rw [hd₂]; exact hd₃, hs₂.trans hs₃, ?_⟩
  obtain ⟨A, C, hA, -, hins⟩ := exists_insertAt (show s.offset + 1 ≤ cs.length by omega)
  rw [hins, ← hA, show s.offset + s.length + 1 = A.length + B.length by omega, mapSpan_whole,
    restyleRuns_middle _ (by rw [length_map, hBl]; exact hs.runs.within), hs.runs.restyleRuns (by rw [length_map, hBl]), Inserted.adopt f (by rw [← hs.text]; exact hB), ← hins] at h₃
  exact h₃

def PWDocument.removal (d : PWDocument) (offset length : Nat) : UndoStep :=
  { kind := .remove, offset := offset, length := length, text := getText d.fParas offset length
    runs := (captureRuns d.fParas offset length).getD [], images := (removeParas d.fDefault d.fParas offset length).2 }

theorem remove_eq {d : PWDocument} {offset length : Nat} (h0 : 0 < length) (hr : offset + length ≤ docLength d.fParas) :
    d.remove offset length =
      { d with fParas := (removeParas d.fDefault d.fParas offset length).1 }.pushUndo (d.removal offset length) := by
  have hc := clipLength_eq hr
  unfold PWDocument.remove
  rw [if_neg (by omega), hc]
  rfl

theorem Holds.removal {d : PWDocument} {cs : List Cell} (h : Holds d.fParas cs) {offset length : Nat}
    (hr : offset + length ≤ Writer.docLength d.fParas) :
    RemovedAt (d.removal offset length) ((cs.drop (offset + 1)).take length) := by
  obtain ⟨runs, hruns, hdesc⟩ := captureRuns_spec h.tiled h.ne_nil hr
  have hL := h.length
  rw [h.cells] at hdesc
  refine ⟨rfl, ?_, ?_, ?_⟩
  · rw [← h.cells]
    exact h.tiled.getText offset length
  · rw [length_take, length_drop]
    show length = _
    omega
  · show Describes 0 ((captureRuns d.fParas offset length).getD []) _
    rw [hruns]
    exact hdesc

theorem Holds.remove {d : PWDocument} {cs : List Cell} (h : Holds d.fParas cs) {offset length : Nat} (h0 : 0 < length)
    (hr : offset + length ≤ Writer.docLength d.fParas) :
    Holds (d.remove offset length).fParas (cut (offset + 1) (offset + 1 + length) cs) := by
  rw [remove_fParas h0 (by omega), clipLength_eq hr]
  exact h.removeParas d.fDefault hr

theorem undoStep_insert {s : UndoStep} (hk : s.kind = .insert) (d : PWDocument) :
    d.undoStep s = some (d.remove s.offset s.length) := by
  unfold PWDocument.undoStep
  rw [hk]

theorem RemovedAt.undoStep {d : PWDocument} {s : UndoStep} {cs span : List Cell} (hs : RemovedAt s span) (hi : d.Internal)
    (h : Holds d.fParas cs) (ho : s.offset ≤ docLength d.fParas) :
    ∃ d', d.undoStep s = some d' ∧ SameShell d d' ∧
      Holds d'.fParas (insertAt (s.offset + 1) (span.map (Cell.reborn (paraFormatAt d.fParas s.offset))) cs) := by
  obtain ⟨d', hd', hsh, hh⟩ := hs.putBack hi h ho
  exact ⟨{ d' with fParas := placeImages s.images d'.fParas }, by rw [undoStep_remove hs.kind, hd', Option.map_some],
    ⟨hsh.dflt, hsh.undo, hsh.redo, hsh.styles, hsh.coalesce, hsh.header, hsh.footer, hsh.internal⟩,
    hh.placeImages s.images⟩

/-- A step that undoes a restyling of the span `M`, before it `span`. -/
structure RestyledAt (s : UndoStep) (span M : List Cell) : Prop where
  kind : s.kind = .format
  length : s.length = span.length
  same : M.length = span.length
  runs : Describes 0 s.runs span

section
variable {d : PWDocument} {s : UndoStep} {A M C span : List Cell} (hs : RestyledAt s span M)
  (h : Holds d.fParas (A ++ M ++ C)) (hA : A.length = s.offset + 1)
include hs h hA

theorem RestyledAt.inRange : s.offset + s.length ≤ docLength d.fParas := by
  have hM := hs.same
  have hl := hs.length
  have hlen := h.length
  simp only [length_append] at hlen
  omega

theorem RestyledAt.captured : ∃ cur, captureRuns d.fParas s.offset s.length = some cur ∧ Describes 0 cur M := by
  have hM := hs.same
  obtain ⟨cur, hcur, hdesc⟩ := captureRuns_spec h.tiled h.ne_nil (hs.inRange h hA)
  rw [h.cells, ← hA, append_assoc, drop_left, hs.length, take_left' hM] at hdesc
  exact ⟨cur, hcur, hdesc⟩

theorem RestyledAt.applied (hi : d.Internal) : ∃ d', applyRuns s.offset s.runs d = some d' ∧ SameShell d d' ∧
    Holds d'.fParas (A ++ List.zipWith Cell.adopt M span ++ C) := by
  have hM := hs.same
  have hr := hs.inRange h hA
  rw [hs.length] at hr
  obtain ⟨d', hd', hd'h, hsh⟩ := applyRuns_spec s.offset s.runs hi h hs.runs.within hr
  rw [← hA, restyleRuns_middle _ (by rw [hM]; exact hs.runs.within), hs.runs.restyleRuns hM] at hd'h
  exact ⟨d', hd', hsh, hd'h⟩

/-- **Undoing a restyling gives the span its formats back**; what it had becomes the redo. -/
theorem RestyledAt.undoStep (hi : d.Internal) : ∃ cur d', Describes 0 cur M ∧ d.undoStep s = some d' ∧
    SameShell { d with fRedo := d.fRedo.modifyHead (fun r => { r with runs := cur }) } d' ∧
    Holds d'.fParas (A ++ List.zipWith Cell.adopt M span ++ C) := by
  obtain ⟨cur, hcur, hdesc⟩ := hs.captured h hA
  obtain ⟨d', hd', hsh, hd'h⟩ := hs.applied (d := { d with fRedo := d.fRedo.modifyHead (fun r => { r with runs := cur }) })
    h hA hi
  refine ⟨cur, d', hdesc, ?_, hsh, hd'h⟩
  unfold PWDocument.undoStep
  rw [hs.kind]
  dsimp only
  rw [hcur]
  exact hd'

end

theorem undoStep_paraformat {s : UndoStep} (hk : s.kind = .paraformat) (d : PWDocument) :
    ∃ d', d.undoStep s = some d' ∧ SameShell d d' ∧ d'.fParas = setFormatParas d.fParas s.offset s.paraFormat := by
  unfold PWDocument.undoStep
  rw [hk]
  dsimp only
  split
  · exact ⟨_, rfl, ⟨rfl, rfl, rfl, rfl, rfl, rfl, rfl, rfl⟩, rfl⟩
  · rename_i hlt
    exact ⟨d, rfl, SameShell.refl d, (modify_eq_self (Nat.le_of_not_lt hlt)).symm⟩

end Writer
end Prose
