import Mathlib.Logic.Relation
import Prose.WriterCalls
import Prose.WriterSplice
/-!
# WriterEvolve — every call is a run of changes of the paragraphs

`ParasStep` lists the ways a call changes the paragraphs: text put in, a paragraph split, a range removed or restyled, a
paragraph format or an image set.  Every call of the document, `Undo` and `Redo` with all they replay included, is a run
of such changes (`call_evolves`), so what each of them keeps holds in every document a program can reach.
-/
namespace Prose
namespace Writer

open List

def setImageParas (ps : List Para) (i k : Nat) (img : PWImage) : List Para :=
  ps.modify i (fun p => { p with images := p.images.set k img, revision := p.revision + 1 })

/-- One change of the paragraphs, beside them the id the next new one gets. -/
inductive ParasStep : List Para × Nat → List Para × Nat → Prop
  | insert (dflt : PWCharFormat) (ps : List Para) (n offset : Nat) {t : List Byte} (fmt : Option PWCharFormat) :
      t ≠ [] → newline ∉ t → ParasStep (ps, n) (insertParas dflt ps offset t fmt, n)
  | split (dflt : PWCharFormat) (ps : List Para) (n offset : Nat) :
      ParasStep (ps, n) (splitParas dflt ps offset n, n + 1)
  | remove (dflt : PWCharFormat) (ps : List Para) (n : Nat) {offset length : Nat} :
      0 < length → offset + length ≤ docLength ps → ParasStep (ps, n) ((removeParas dflt ps offset length).1, n)
  | format (dflt fmt : PWCharFormat) (ps : List Para) (n offset length : Nat) :
      ParasStep (ps, n) (formatLoop dflt fmt length ps offset (offset + length), n)
  | setFormat (ps : List Para) (n para : Nat) (fmt : PWParaFormat) : ParasStep (ps, n) (setFormatParas ps para fmt, n)
  | setImage (ps : List Para) (n i : Nat) {k : Nat} (img : PWImage) :
      k ≤ (paraAt ps i).text.length → ParasStep (ps, n) (setImageParas ps i k img, n)

abbrev Evolves : List Para × Nat → List Para × Nat → Prop := Relation.ReflTransGen ParasStep

def PWDocument.content (d : PWDocument) : List Para × Nat := (d.fParas, d.fNextParaId)

open Relation (ReflTransGen)

/-- One change a call makes to the document: an edit that records a step, or one of the paragraphs that does not. -/
inductive DocStep : PWDocument → PWDocument → Prop
  | insertLine (d : PWDocument) (offset : Nat) {t : List Byte} (fmt : Option PWCharFormat) :
      t ≠ [] → newline ∉ t → DocStep d (d.insertLine offset t fmt)
  | splitPara (d : PWDocument) (offset : Nat) : DocStep d (d.splitPara offset)
  | remove (d : PWDocument) {offset length : Nat} :
      0 < length → offset < docLength d.fParas → DocStep d (d.remove offset length)
  | applyFormat {d d' : PWDocument} {offset length : Nat} {fmt : PWCharFormat} :
      0 < length → d.applyFormat offset length fmt = some d' → DocStep d d'
  | setParaFormat (d : PWDocument) {para : Nat} (fmt : PWParaFormat) :
      para < d.fParas.length → DocStep d (d.setParaFormat para fmt)
  | setImage (d : PWDocument) (i : Nat) {k : Nat} (img : PWImage) :
      k ≤ (paraAt d.fParas i).text.length → DocStep d { d with fParas := setImageParas d.fParas i k img }

abbrev Edits : PWDocument → PWDocument → Prop := ReflTransGen DocStep

structure SameSettings (d d' : PWDocument) : Prop where
  dflt : d'.fDefault = d.fDefault
  styles : d'.fStyles = d.fStyles
  coalesce : d'.fCoalesce = d.fCoalesce
  header : d'.fHeader = d.fHeader
  footer : d'.fFooter = d.fFooter
  internal : d'.fInternalEdit = d.fInternalEdit

theorem SameSettings.refl (d : PWDocument) : SameSettings d d := ⟨rfl, rfl, rfl, rfl, rfl, rfl⟩

theorem SameSettings.trans {a b c : PWDocument} (h : SameSettings a b) (h' : SameSettings b c) : SameSettings a c :=
  ⟨h'.dflt.trans h.dflt, h'.styles.trans h.styles, h'.coalesce.trans h.coalesce, h'.header.trans h.header,
    h'.footer.trans h.footer, h'.internal.trans h.internal⟩

theorem pushUndo_content (d : PWDocument) (s : UndoStep) : (d.pushUndo s).content = d.content := by
  unfold PWDocument.pushUndo
  split <;> rfl

theorem pushUndo_settings (d : PWDocument) (s : UndoStep) : SameSettings d (d.pushUndo s) := by
  unfold PWDocument.pushUndo
  split <;> exact ⟨rfl, rfl, rfl, rfl, rfl, rfl⟩

theorem insertLine_content (d : PWDocument) (offset : Nat) (t : List Byte) (fmt : Option PWCharFormat) :
    (d.insertLine offset t fmt).content = (insertParas d.fDefault d.fParas offset t fmt, d.fNextParaId) := by
  unfold PWDocument.insertLine
  dsimp only
  split
  · rfl
  · exact pushUndo_content _ _

/-- **A change of the document is a change of its paragraphs.** -/
theorem DocStep.parasStep {d d' : PWDocument} (h : DocStep d d') : ParasStep d.content d'.content := by
  cases h with
  | insertLine offset fmt ht hn =>
    rw [insertLine_content]
    exact .insert d.fDefault d.fParas d.fNextParaId offset fmt ht hn
  | splitPara offset =>
    unfold PWDocument.splitPara
    rw [pushUndo_content]
    exact .split d.fDefault d.fParas d.fNextParaId offset
  | @remove offset length h0 hr =>
    unfold PWDocument.remove
    rw [if_neg (by omega)]
    dsimp only
    rw [pushUndo_content]
    obtain ⟨hc0, hcr⟩ := clipLength_pos h0 hr
    exact .remove d.fDefault d.fParas d.fNextParaId hc0 hcr
  | @applyFormat _ offset length fmt h0 hd =>
    unfold PWDocument.applyFormat at hd
    rw [if_neg (by omega)] at hd
    obtain ⟨runs, -, rfl⟩ := Option.map_eq_some_iff.1 hd
    rw [pushUndo_content]
    exact .format d.fDefault fmt d.fParas d.fNextParaId offset length
  | @setParaFormat para fmt hp =>
    unfold PWDocument.setParaFormat
    rw [if_neg (by omega), pushUndo_content]
    exact .setFormat d.fParas d.fNextParaId para fmt
  | setImage i img hk => exact .setImage d.fParas d.fNextParaId i img hk

theorem DocStep.settings {d d' : PWDocument} (h : DocStep d d') : SameSettings d d' := by
  have push : ∀ (ps : List Para) (n : Nat) (s : UndoStep),
      SameSettings d ({ d with fParas := ps, fNextParaId := n }.pushUndo s) := fun ps n s =>
    (SameSettings.trans (b := { d with fParas := ps, fNextParaId := n }) ⟨rfl, rfl, rfl, rfl, rfl, rfl⟩
      (pushUndo_settings _ s))
  cases h with
  | @insertLine offset t fmt ht hn =>
    unfold PWDocument.insertLine
    dsimp only
    split
    · exact ⟨rfl, rfl, rfl, rfl, rfl, rfl⟩
    · exact push _ _ _
  | splitPara offset => exact push _ _ _
  | @remove offset length h0 hr =>
    unfold PWDocument.remove
    rw [if_neg (by omega)]
    exact push _ _ _
  | @applyFormat _ offset length fmt h0 hd =>
    unfold PWDocument.applyFormat at hd
    rw [if_neg (by omega)] at hd
    obtain ⟨runs, -, rfl⟩ := Option.map_eq_some_iff.1 hd
    exact push _ _ _
  | @setParaFormat para fmt hp =>
    unfold PWDocument.setParaFormat
    rw [if_neg (by omega)]
    exact push _ _ _
  | setImage i img hk => exact ⟨rfl, rfl, rfl, rfl, rfl, rfl⟩

theorem Edits.evolves {d d' : PWDocument} (h : Edits d d') : Evolves d.content d'.content := by
  induction h with
  | refl => exact ReflTransGen.refl
  | tail _ hs ih => exact ih.tail hs.parasStep

theorem Edits.settings {d d' : PWDocument} (h : Edits d d') : SameSettings d d' := by
  induction h with
  | refl => exact SameSettings.refl d
  | tail _ hs ih => exact ih.trans hs.settings

/-! ## The edits -/

theorem insertSegment_edits (d : PWDocument) (offset : Nat) {t : List Byte} (fmt : Option PWCharFormat)
    (hn : newline ∉ t) : Edits d (d.insertSegment offset t fmt) := by
  unfold PWDocument.insertSegment
  split
  · exact ReflTransGen.refl
  · rename_i ht
    exact ReflTransGen.single (.insertLine d offset fmt ht hn)

theorem splitPara_edits (d : PWDocument) (offset : Nat) : Edits d (d.splitPara offset) :=
  ReflTransGen.single (.splitPara d offset)

theorem insertLines_edits (fmt : Option PWCharFormat) : ∀ (ls : List (List Byte)) (d : PWDocument) (at' : Nat),
    (∀ l ∈ ls, newline ∉ l) → Edits d (insertLines fmt d at' ls)
  | [], _, _, _ => ReflTransGen.refl
  | [seg], d, at', h => insertSegment_edits d at' fmt (h seg mem_cons_self)
  | seg :: l :: ls, d, at', h => by
    have h1 := insertSegment_edits d at' fmt (h seg mem_cons_self)
    have h2 := splitPara_edits (d.insertSegment at' seg fmt) (at' + seg.length)
    exact (h1.trans h2).trans (insertLines_edits fmt (l :: ls) _ (at' + seg.length + 1)
      (fun x hx => h x (mem_cons_of_mem seg hx)))

theorem insert_edits (d : PWDocument) (offset : Nat) (t : List Byte) (fmt : Option PWCharFormat) :
    Edits d (d.insert offset t fmt) := by
  unfold PWDocument.insert
  split
  · exact ReflTransGen.refl
  rename_i ht
  split
  · exact insertLines_edits fmt (lines t) d offset (newline_not_mem_lines t)
  · rename_i hn
    exact ReflTransGen.single (.insertLine d offset fmt ht hn)

theorem remove_edits (d : PWDocument) (offset length : Nat) : Edits d (d.remove offset length) := by
  by_cases h : length = 0 ∨ offset ≥ docLength d.fParas
  · rw [PWDocument.remove, if_pos h]
  · exact ReflTransGen.single (.remove d (by omega) (by omega))

theorem applyFormat_edits {d d' : PWDocument} {offset length : Nat} {fmt : PWCharFormat}
    (h : d.applyFormat offset length fmt = some d') : Edits d d' := by
  by_cases h0 : length = 0
  · rw [PWDocument.applyFormat, if_pos h0] at h
    cases h
    exact ReflTransGen.refl
  · exact ReflTransGen.single (.applyFormat (Nat.pos_of_ne_zero h0) h)

theorem setParaFormat_edits (d : PWDocument) (para : Nat) (fmt : PWParaFormat) : Edits d (d.setParaFormat para fmt) := by
  by_cases h : para < d.fParas.length
  · exact ReflTransGen.single (.setParaFormat d fmt h)
  · rw [PWDocument.setParaFormat, if_pos (Nat.le_of_not_lt h)]

theorem locate_le : ∀ (ps : List Para) (offset : Nat),
    (locate ps offset).2 ≤ (paraAt ps (locate ps offset).1).text.length
  | [], _ => Nat.zero_le _
  | [p], offset => Nat.min_le_right offset p.text.length
  | p :: q :: ps, offset => by
    unfold locate
    split
    · rename_i h
      exact h
    · exact locate_le (q :: ps) (offset - (p.text.length + 1))

theorem length_le_insertParas (dflt : PWCharFormat) (ps : List Para) (offset i : Nat) (t : List Byte)
    (fmt : Option PWCharFormat) :
    (paraAt ps i).text.length ≤ (paraAt (insertParas dflt ps offset t fmt) i).text.length := by
  unfold insertParas paraAt
  rw [getD_eq_getElem?_getD, getD_eq_getElem?_getD, getElem?_modify]
  cases ps[i]? with
  | none => exact Nat.le_refl _
  | some p =>
    split
    · show p.text.length ≤ (Splice.insertAt _ t p.text).length
      rw [Splice.length_insertAt]
      exact Nat.le_add_right _ _
    · exact Nat.le_refl _

theorem newline_not_mem_kObjectChar : newline ∉ kObjectChar := by decide

theorem insert_kObjectChar (d : PWDocument) (offset : Nat) (fmt : Option PWCharFormat) :
    d.insert offset kObjectChar fmt = d.insertLine offset kObjectChar fmt := by
  unfold PWDocument.insert
  rw [if_neg (by decide), if_neg newline_not_mem_kObjectChar]

theorem insertImage_edits (d : PWDocument) (offset : Nat) (bitmap : Option Bitmap) (w h : Rat) :
    Edits d (d.insertImage offset bitmap w h) := by
  unfold PWDocument.insertImage
  cases bitmap with
  | none => exact ReflTransGen.refl
  | some b =>
    dsimp only
    have hk : (locate d.fParas offset).2 ≤
        (paraAt (d.insert offset kObjectChar none).fParas (locate d.fParas offset).1).text.length := by
      rw [insert_kObjectChar, insertLine_fParas]
      exact Nat.le_trans (locate_le d.fParas offset) (length_le_insertParas d.fDefault d.fParas offset _ kObjectChar none)
    exact (insert_edits d offset kObjectChar none).tail (.setImage _ _ ⟨some b, w, h⟩ hk)

theorem replaceLoop_edits (find replace : List Byte) (cs : Bool) : ∀ (fuel : Nat) (d : PWDocument) (at' count : Nat),
    Edits d (replaceLoop find replace cs fuel d at' count).1
  | 0, _, _, _ => ReflTransGen.refl
  | fuel + 1, d, at', count => by
    unfold replaceLoop
    split
    · exact ReflTransGen.refl
    rename_i found _
    have h1 := remove_edits d found find.length
    have h2 := insert_edits (d.remove found find.length) found replace none
    exact (h1.trans h2).trans (replaceLoop_edits find replace cs fuel _ _ _)

theorem foldl_edits {β : Type} {f : PWDocument → β → PWDocument} (hf : ∀ d b, Edits d (f d b)) :
    ∀ (l : List β) (d : PWDocument), Edits d (l.foldl f d)
  | [], _ => ReflTransGen.refl
  | b :: l, d => (hf d b).trans (foldl_edits hf l (f d b))

theorem applyStyle_edits {d d' : PWDocument} {offset length i : Nat} (h : d.applyStyle offset length i = some d') :
    Edits d d' := by
  unfold PWDocument.applyStyle at h
  split at h
  · cases h
    exact ReflTransGen.refl
  obtain ⟨d₁, hd₁, rfl⟩ := Option.map_eq_some_iff.1 h
  have h1 : Edits d d₁ := by
    split at hd₁
    · exact applyFormat_edits hd₁
    · cases hd₁
      exact ReflTransGen.refl
  exact h1.trans (foldl_edits (fun d p => setParaFormat_edits d p _) _ d₁)

theorem insertTableRows_edits (row : List Byte) : ∀ (headFmt : Option PWCharFormat) (rows : Nat) (d : PWDocument)
    (at' : Nat), Edits d (insertTableRows headFmt row rows d at')
  | _, 0, _, _ => ReflTransGen.refl
  | headFmt, 1, d, at' => insert_edits d at' row headFmt
  | headFmt, rows + 2, d, at' => by
    have h1 := insert_edits d at' row headFmt
    have h2 := splitPara_edits (d.insert at' row headFmt) (at' + row.length)
    exact (h1.trans h2).trans (insertTableRows_edits row none (rows + 1) _ (at' + row.length + 1))

/-- **Every edit is a run of changes of the document.** -/
theorem edit_edits {d d' : PWDocument} {e : Edit} (h : d.edit e = some d') : Edits d d' := by
  cases e with
  | insert offset t fmt => cases h; exact insert_edits d offset t fmt
  | remove offset length => cases h; exact remove_edits d offset length
  | applyFormat offset length fmt => exact applyFormat_edits h
  | setParaFormat para fmt => cases h; exact setParaFormat_edits d para fmt
  | splitPara offset => cases h; exact splitPara_edits d offset
  | insertImage offset bitmap w h' => cases h; exact insertImage_edits d offset bitmap w h'
  | replaceAll find replace cs =>
    cases h
    unfold PWDocument.replaceAll
    split
    · exact ReflTransGen.refl
    · exact replaceLoop_edits find replace cs _ d 0 0
  | applyStyle offset length i => exact applyStyle_edits h
  | insertTable offset rows cols header =>
    cases h
    unfold PWDocument.insertTable
    split
    · exact ReflTransGen.refl
    · exact insertTableRows_edits _ _ rows d offset
  | insertTableRowAfter offset =>
    cases h
    unfold PWDocument.insertTableRowAfter
    dsimp only
    split
    · exact ReflTransGen.refl
    · exact (splitPara_edits d _).trans (insert_edits _ _ _ none)
  | insertTableColumnAt offset =>
    cases h
    unfold PWDocument.insertTableColumnAt
    dsimp only
    split
    · exact ReflTransGen.refl
    · exact foldl_edits (fun d p => insert_edits d _ _ none) _ d
  | deleteTableRow offset =>
    cases h
    unfold PWDocument.deleteTableRow
    dsimp only
    split
    · exact ReflTransGen.refl
    split
    · exact (remove_edits d _ _).trans (remove_edits _ _ 1)
    · split
      · exact remove_edits d _ _
      · exact remove_edits d _ _
  | deleteTableColumnAt offset =>
    cases h
    unfold PWDocument.deleteTableColumnAt
    dsimp only
    split
    · exact ReflTransGen.refl
    split
    · exact ReflTransGen.refl
    refine foldl_edits (fun d p => ?_) _ d
    split
    · exact ReflTransGen.refl
    · exact remove_edits d _ _

/-! ## `Undo` and `Redo` -/

theorem applyRuns_edits (offset : Nat) : ∀ (rs : List PWRun) {d d' : PWDocument}, applyRuns offset rs d = some d' →
    Edits d d'
  | [], _, _, h => by
    cases h
    exact ReflTransGen.refl
  | r :: rs, d, d', h => by
    unfold applyRuns at h
    split at h
    · obtain ⟨d₁, h1, h2⟩ := Option.bind_eq_some_iff.1 h
      exact (applyFormat_edits h1).trans (applyRuns_edits offset rs h2)
    · exact applyRuns_edits offset rs h

theorem placeImages_evolves (images : ImageTable) (ps : List Para) (n : Nat) :
    Evolves (ps, n) (placeImages images ps, n) := by
  have key : ∀ (l : List (Int × PWImage)) (ps : List Para),
      Evolves (ps, n) (l.foldl (fun ps e => placeImage ps e.1.toNat e.2) ps, n) := by
    intro l
    induction l with
    | nil => exact fun _ => ReflTransGen.refl
    | cons e l ih =>
      exact fun ps => ReflTransGen.head (.setImage ps n _ e.2 (locate_le ps e.1.toNat)) (ih (placeImage ps e.1.toNat e.2))
  exact key images.entries ps

theorem undoStep_evolves {d d' : PWDocument} {s : UndoStep} (h : d.undoStep s = some d') :
    Evolves d.content d'.content := by
  unfold PWDocument.undoStep at h
  split at h
  · cases h
    exact (remove_edits d s.offset s.length).evolves
  · obtain ⟨d₁, h1, h2⟩ := Option.bind_eq_some_iff.1 h
    obtain ⟨d₂, h3, rfl⟩ := Option.map_eq_some_iff.1 h2
    have h4 := (insert_edits d s.offset s.text none).trans (applyFormat_edits h1)
    exact (Edits.evolves (h4.trans (applyRuns_edits s.offset s.runs h3))).trans (placeImages_evolves s.images d₂.fParas d₂.fNextParaId)
  · obtain ⟨cur, -, h2⟩ := Option.bind_eq_some_iff.1 h
    have h3 := (applyRuns_edits s.offset s.runs h2).evolves
    exact h3
  · cases h
    split
    · exact ReflTransGen.single (.setFormat d.fParas d.fNextParaId s.offset s.paraFormat)
    · exact ReflTransGen.refl

theorem undo_evolves {d d' : PWDocument} (h : d.undo = some d') : Evolves d.content d'.content := by
  unfold PWDocument.undo at h
  split at h
  · cases h
    exact ReflTransGen.refl
  · obtain ⟨d₁, h1, rfl⟩ := Option.map_eq_some_iff.1 h
    have h2 := undoStep_evolves h1
    exact h2

theorem redoStep_evolves {d d' : PWDocument} {s s' : UndoStep} (h : d.redoStep s = some (d', s')) :
    Evolves d.content d'.content := by
  unfold PWDocument.redoStep at h
  split at h
  · cases h
    exact (insert_edits d s.offset s.text none).evolves
  · cases h
    exact (remove_edits d s.offset s.length).evolves
  · obtain ⟨cur, -, h2⟩ := Option.bind_eq_some_iff.1 h
    obtain ⟨d₁, h3, h4⟩ := Option.map_eq_some_iff.1 h2
    cases h4
    exact (applyRuns_edits s.offset s.runs h3).evolves
  · split at h
    · cases h
      exact ReflTransGen.single (.setFormat d.fParas d.fNextParaId s.offset s.paraFormat)
    · cases h
      exact ReflTransGen.refl

theorem redo_evolves {d d' : PWDocument} (h : d.redo = some d') : Evolves d.content d'.content := by
  unfold PWDocument.redo at h
  split at h
  · cases h
    exact ReflTransGen.refl
  · obtain ⟨⟨d₁, s₁⟩, h1, rfl⟩ := Option.map_eq_some_iff.1 h
    have h2 := redoStep_evolves h1
    exact h2

/-- **Every call is a run of changes of the paragraphs.** -/
theorem call_evolves {d d' : PWDocument} {c : Call} (h : d.call c = some d') : Evolves d.content d'.content := by
  cases c with
  | edit e => exact (edit_edits h).evolves
  | undo => exact undo_evolves h
  | redo => exact redo_evolves h
  | addStyle name chr para =>
    cases h
    unfold PWDocument.addStyle
    split <;> exact ReflTransGen.refl
  | removeStyle i =>
    cases h
    unfold PWDocument.removeStyle
    split <;> exact ReflTransGen.refl
  | _ =>
    cases h
    exact ReflTransGen.refl

end Writer
end Prose
