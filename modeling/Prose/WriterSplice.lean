import Prose.WriterCapture
/-!
# WriterSplice — the calls of the document on its cells

What `Insert` of any text, `ApplyFormat`, a list of saved runs and the undoing of a removal do to the cells, and that none
of them touches more of the document than its paragraphs and stacks.
-/
namespace Prose
namespace Writer

open Splice List

def lastFormat (f : PWParaFormat) (cs : List Cell) : PWParaFormat :=
  cs.foldl (fun f c => match c with | .brk g => g | .ch _ _ => f) f

theorem lastFormat_append (f : PWParaFormat) (as bs : List Cell) :
    lastFormat f (as ++ bs) = lastFormat (lastFormat f as) bs := foldl_append

theorem lastFormat_chars (f : PWParaFormat) : ∀ (cs : List Cell), (∀ c ∈ cs, ∃ b g, c = .ch b g) → lastFormat f cs = f
  | [], _ => rfl
  | c :: cs, h => by
    obtain ⟨b, g, rfl⟩ := h c mem_cons_self
    have ih := lastFormat_chars f cs (fun x hx => h x (mem_cons_of_mem _ hx))
    exact ih

theorem mem_zipWith_ch {text : List Byte} {fs : List PWCharFormat} {c : Cell} (h : c ∈ List.zipWith Cell.ch text fs) :
    ∃ b g, c = .ch b g := by
  obtain ⟨i, hi⟩ := mem_iff_getElem?.1 h
  obtain ⟨b, g, -, -, hc⟩ := getElem?_zipWith_eq_some.1 hi
  exact ⟨b, g, hc.symm⟩

def paraFormatAt (ps : List Para) (offset : Nat) : PWParaFormat := (paraAt ps (locate ps offset).1).format

theorem Tiled.paraFormatAt {ps : List Para} (h : Tiled ps) (hne : ps ≠ []) (offset : Nat) :
    paraFormatAt ps offset = lastFormat {} ((cells ps).take (min offset (docLength ps) + 1)) := by
  obtain ⟨pre, p, post, k, rfl, hloc, hk, hmin⟩ := locate_spec hne offset
  obtain ⟨hpre, hpp⟩ := tiled_append.1 h
  rw [Writer.paraFormatAt, hloc, paraAt_mid, ← hmin, cells_append, cells_cons, Nat.add_assoc, ← hpre.length_cells,
    take_length_add_append, take_append_of_le_length (by rw [(tiled_cons.1 hpp).1.length_cells]; omega),
    Para.cells, take_succ_cons, lastFormat_append]
  exact (lastFormat_chars p.format _ (fun c hc => mem_zipWith_ch (mem_of_mem_take hc))).symm

/-! ## `Insert` of any text -/

/-- The cells of an inserted text: a break of the paragraph's format for a newline, the asked format for a byte. -/
def Inserted (F : PWParaFormat) (fmt : Option PWCharFormat) : List Byte → List Cell → Prop :=
  List.Forall₂ (fun b c => if b = newline then c = .brk F else ∃ f, c = .ch b f ∧ ∀ g, fmt = some g → f = g)

theorem Inserted.append {F : PWParaFormat} {fmt : Option PWCharFormat} {s t : List Byte} {A B : List Cell}
    (ha : Inserted F fmt s A) (hb : Inserted F fmt t B) : Inserted F fmt (s ++ t) (A ++ B) := by
  induction ha with
  | nil => exact hb
  | cons h _ ih => exact List.Forall₂.cons h ih

theorem Inserted.length {F : PWParaFormat} {fmt : Option PWCharFormat} {t : List Byte} {B : List Cell}
    (h : Inserted F fmt t B) : B.length = t.length := h.length_eq.symm

theorem inserted_chars {F : PWParaFormat} {fmt : Option PWCharFormat} {f : PWCharFormat} (hf : ∀ g, fmt = some g → f = g) :
    ∀ {t : List Byte}, newline ∉ t → Inserted F fmt t (t.map (Cell.ch · f))
  | [], _ => List.Forall₂.nil
  | c :: t, h => by
    refine List.Forall₂.cons ?_ (inserted_chars hf (fun hc => h (mem_cons_of_mem _ hc)))
    rw [if_neg (fun hc => h (by rw [hc]; exact mem_cons_self))]
    exact ⟨f, rfl, hf⟩

theorem Inserted.lastFormat {F : PWParaFormat} {fmt : Option PWCharFormat} {t : List Byte} {B : List Cell}
    (h : Inserted F fmt t B) : lastFormat F B = F := by
  induction h with
  | nil => rfl
  | @cons b c t B hbc _ ih =>
    show Writer.lastFormat (Writer.lastFormat F [c]) B = F
    split at hbc
    · subst hbc
      exact ih
    · obtain ⟨f, rfl, -⟩ := hbc
      exact ih

theorem lines_ne_nil (t : List Byte) : lines t ≠ [] := by
  cases t with
  | nil => simp [lines]
  | cons c t =>
    unfold lines
    split
    · simp
    · split <;> simp

theorem newline_not_mem_lines : ∀ (t : List Byte), ∀ l ∈ lines t, newline ∉ l
  | [], l, h => by
    rw [lines, mem_singleton] at h
    simp [h]
  | c :: t, l, h => by
    have ih := newline_not_mem_lines t
    unfold lines at h
    split at h
    · rcases mem_cons.1 h with rfl | h
      · simp
      · exact ih l h
    rename_i hc
    cases hl : lines t with
    | nil => exact absurd hl (lines_ne_nil t)
    | cons x xs =>
      rw [hl] at h ih
      rcases mem_cons.1 h with rfl | h
      · intro hm
        rcases mem_cons.1 hm with hm | hm
        · exact hc hm.symm
        · exact ih x mem_cons_self hm
      · exact ih l (mem_cons_of_mem _ h)

def unlines : List (List Byte) → List Byte
  | []          => []
  | [l]         => l
  | l :: m :: ls => l ++ newline :: unlines (m :: ls)

theorem unlines_lines : ∀ (t : List Byte), unlines (lines t) = t
  | [] => rfl
  | c :: t => by
    have ih := unlines_lines t
    unfold lines
    cases hl : lines t with
    | nil => exact absurd hl (lines_ne_nil t)
    | cons x xs =>
      rw [hl] at ih
      split
      · rename_i hc
        rw [hc, unlines, ih, nil_append]
      cases xs with
      | nil =>
        simp only [unlines] at ih ⊢
        rw [ih]
      | cons y ys =>
        simp only [unlines] at ih ⊢
        rw [cons_append, ih]

theorem pushUndo_fParas (d : PWDocument) (s : UndoStep) : (d.pushUndo s).fParas = d.fParas := by
  unfold PWDocument.pushUndo
  split <;> rfl

theorem insertLine_fParas (d : PWDocument) (offset : Nat) (t : List Byte) (fmt : Option PWCharFormat) :
    (d.insertLine offset t fmt).fParas = insertParas d.fDefault d.fParas offset t fmt := by
  unfold PWDocument.insertLine
  dsimp only
  split
  · rfl
  · exact pushUndo_fParas _ _

theorem splitPara_fParas (d : PWDocument) (offset : Nat) :
    (d.splitPara offset).fParas = splitParas d.fDefault d.fParas offset d.fNextParaId := pushUndo_fParas _ _

theorem clipLength_pos {ps : List Para} {offset length : Nat} (h0 : 0 < length) (ho : offset < docLength ps) :
    0 < clipLength ps offset length ∧ offset + clipLength ps offset length ≤ docLength ps := by
  unfold clipLength
  split <;> omega

theorem clipLength_eq {ps : List Para} {offset length : Nat} (hr : offset + length ≤ docLength ps) :
    clipLength ps offset length = length := if_neg (by omega)

theorem remove_fParas {d : PWDocument} {offset length : Nat} (h0 : 0 < length) (ho : offset < docLength d.fParas) :
    (d.remove offset length).fParas =
      (removeParas d.fDefault d.fParas offset (clipLength d.fParas offset length)).1 := by
  unfold PWDocument.remove
  rw [if_neg (by omega)]
  exact pushUndo_fParas _ _

theorem ne_nil_of_cells {ps : List Para} (h : cells ps ≠ []) : ps ≠ [] := fun hn => h (by rw [hn]; rfl)

theorem ne_nil_of_length_cells {ps : List Para} {n : Nat} (h : (cells ps).length = n + 1) : ps ≠ [] :=
  ne_nil_of_cells (ne_nil_of_length_eq_add_one h)

/-- The text and format half of a document: tiled paragraphs, and their cells. -/
structure Holds (ps : List Para) (cs : List Cell) : Prop where
  tiled : Tiled ps
  ne_nil : ps ≠ []
  cells : cells ps = cs

theorem Holds.length {ps : List Para} {cs : List Cell} (h : Holds ps cs) : cs.length = Writer.docLength ps + 1 := by
  rw [← h.cells, h.tiled.length_cells, docLength_add_one h.ne_nil]

theorem Holds.insertParas {ps : List Para} {cs : List Cell} (h : Holds ps cs) (dflt : PWCharFormat) (offset : Nat)
    {t : List Byte} (fmt : Option PWCharFormat) (ht : t ≠ []) :
    Holds (insertParas dflt ps offset t fmt) (insertAt (min offset (Writer.docLength ps) + 1) (t.map (Cell.ch · (fmt.getD
      ((paraAt ps (locate ps offset).1).formatForInsert dflt (locate ps offset).2)))) cs) := by
  obtain ⟨h1, h2⟩ := h.tiled.insertParas h.ne_nil dflt offset fmt ht
  rw [h.cells] at h2
  exact ⟨h1, ne_nil_of_length_cells (by rw [h2, length_insertAt, h.length, Nat.add_right_comm]), h2⟩

theorem Holds.splitParas {ps : List Para} {cs : List Cell} (h : Holds ps cs) (dflt : PWCharFormat) (offset id : Nat) :
    Holds (splitParas dflt ps offset id)
      (insertAt (min offset (Writer.docLength ps) + 1) [.brk (Writer.paraFormatAt ps offset)] cs) := by
  obtain ⟨h1, h2⟩ := h.tiled.splitParas h.ne_nil dflt offset id
  rw [h.cells] at h2
  exact ⟨h1, ne_nil_of_length_cells (by rw [h2, length_insertAt, h.length, Nat.add_right_comm]), h2⟩

theorem Holds.removeParas {ps : List Para} {cs : List Cell} (h : Holds ps cs) (dflt : PWCharFormat) {offset length : Nat}
    (hr : offset + length ≤ Writer.docLength ps) :
    Holds (removeParas dflt ps offset length).1 (cut (offset + 1) (offset + 1 + length) cs) := by
  obtain ⟨h1, h2⟩ := h.tiled.removeParas h.ne_nil dflt hr
  rw [h.cells] at h2
  have hL := h.length
  refine ⟨h1, ne_nil_of_length_cells (n := Writer.docLength ps - length) ?_, h2⟩
  rw [h2, length_cut (by omega) (by omega)]
  omega

theorem Holds.formatLoop {ps : List Para} {cs : List Cell} (h : Holds ps cs) (dflt fmt : PWCharFormat)
    (offset length : Nat) :
    Holds (formatLoop dflt fmt length ps offset (offset + length))
      (mapSpan (offset + 1) (offset + length + 1) (Cell.restyle fmt) cs) := by
  obtain ⟨h1, h2⟩ := h.tiled.formatLoop dflt fmt length ps offset (offset + length) h.ne_nil (by omega)
  rw [h.cells] at h2
  exact ⟨h1, ne_nil_of_length_cells (by rw [h2, length_mapSpan, h.length]), h2⟩

theorem Holds.paraFormatAt {ps : List Para} {cs : List Cell} (h : Holds ps cs) (offset : Nat) :
    paraFormatAt ps offset = Writer.lastFormat {} (cs.take (min offset (Writer.docLength ps) + 1)) := by
  rw [← h.cells]
  exact h.tiled.paraFormatAt h.ne_nil offset

theorem Inserted.paraFormatAt {ps ps' : List Para} {cs B : List Cell} {offset : Nat} {fmt : Option PWCharFormat}
    {t : List Byte} (h : Holds ps cs) (hB : Inserted (Writer.paraFormatAt ps offset) fmt t B)
    (h' : Holds ps' (insertAt (min offset (Writer.docLength ps) + 1) B cs)) :
    Writer.paraFormatAt ps' (offset + t.length) = Writer.paraFormatAt ps offset := by
  have hL := h.length
  have hL' := h'.length
  rw [length_insertAt, hB.length] at hL'
  have hi : min (offset + t.length) (Writer.docLength ps') + 1 = min offset (Writer.docLength ps) + 1 + B.length := by
    rw [hB.length]
    omega
  rw [h'.paraFormatAt, hi, take_insertAt (by omega), lastFormat_append, ← h.paraFormatAt]
  exact hB.lastFormat

theorem Holds.insertSegment {d : PWDocument} {cs : List Cell} (h : Holds d.fParas cs) (offset : Nat) {seg : List Byte}
    (fmt : Option PWCharFormat) (hs : newline ∉ seg) :
    ∃ B, Inserted (Writer.paraFormatAt d.fParas offset) fmt seg B ∧ Holds (d.insertSegment offset seg fmt).fParas
      (insertAt (min offset (Writer.docLength d.fParas) + 1) B cs) := by
  unfold PWDocument.insertSegment
  by_cases h0 : seg = []
  · rw [if_pos h0]
    exact ⟨[], by rw [h0]; exact List.Forall₂.nil, by rw [insertAt_nil]; exact h⟩
  · rw [if_neg h0, insertLine_fParas]
    exact ⟨_, inserted_chars (fun g hg => by rw [hg]; rfl) hs, h.insertParas d.fDefault offset fmt h0⟩

theorem insertLines_cells (fmt : Option PWCharFormat) : ∀ (ls : List (List Byte)) (d : PWDocument) (at' : Nat)
    {cs : List Cell}, Holds d.fParas cs → (∀ l ∈ ls, newline ∉ l) →
    ∃ B, Inserted (Writer.paraFormatAt d.fParas at') fmt (unlines ls) B ∧ Holds (insertLines fmt d at' ls).fParas
      (insertAt (min at' (Writer.docLength d.fParas) + 1) B cs)
  | [], d, at', cs, h, _ => ⟨[], List.Forall₂.nil, by rw [insertAt_nil]; exact h⟩
  | [seg], d, at', cs, h, hl => h.insertSegment at' fmt (hl seg mem_cons_self)
  | seg :: l :: ls, d, at', cs, h, hl => by
    obtain ⟨B, hB, hd⟩ := h.insertSegment at' fmt (hl seg mem_cons_self)
    have hF := hB.paraFormatAt h hd
    have hL := h.length
    have hL' := hd.length
    rw [length_insertAt, hB.length] at hL'
    -- the split behind the segment
    have hs := hd.splitParas (d.insertSegment at' seg fmt).fDefault (at' + seg.length)
      (d.insertSegment at' seg fmt).fNextParaId
    rw [hF, show min (at' + seg.length) (Writer.docLength (d.insertSegment at' seg fmt).fParas) + 1 =
      min at' (Writer.docLength d.fParas) + 1 + B.length by rw [hB.length]; omega,
      insertAt_insertAt (by omega), ← splitPara_fParas] at hs
    have hB' : Inserted (Writer.paraFormatAt d.fParas at') fmt (seg ++ [newline])
        (B ++ [.brk (Writer.paraFormatAt d.fParas at')]) :=
      hB.append (List.Forall₂.cons (by rw [if_pos rfl]) List.Forall₂.nil)
    have hF' := hB'.paraFormatAt h hs
    have hL'' := hs.length
    rw [length_insertAt, hB'.length] at hL''
    rw [length_append, length_singleton] at hL'' hF'
    -- the lines behind it
    obtain ⟨C, hC, hd'⟩ := insertLines_cells fmt (l :: ls) _ (at' + (seg.length + 1)) hs
      (fun x hx => hl x (mem_cons_of_mem _ hx))
    rw [hF'] at hC
    refine ⟨B ++ [.brk (Writer.paraFormatAt d.fParas at')] ++ C, ?_, ?_⟩
    · have := hB'.append hC
      rwa [append_assoc, singleton_append] at this
    · rw [show min (at' + (seg.length + 1)) (Writer.docLength
          ((d.insertSegment at' seg fmt).splitPara (at' + seg.length)).fParas) + 1 =
          min at' (Writer.docLength d.fParas) + 1 + (B ++ [Cell.brk (Writer.paraFormatAt d.fParas at')]).length by
        rw [hB'.length, length_append, length_singleton]; omega, insertAt_insertAt (by omega)] at hd'
      exact hd'

/-- **`Insert` puts its text into the cells**, at the offset clipped to the document. -/
theorem Holds.insert {d : PWDocument} {cs : List Cell} (h : Holds d.fParas cs) (offset : Nat) (t : List Byte)
    (fmt : Option PWCharFormat) :
    ∃ B, Inserted (Writer.paraFormatAt d.fParas offset) fmt t B ∧
      Holds (d.insert offset t fmt).fParas (insertAt (min offset (Writer.docLength d.fParas) + 1) B cs) := by
  unfold PWDocument.insert
  by_cases h0 : t = []
  · rw [if_pos h0]
    exact ⟨[], by rw [h0]; exact List.Forall₂.nil, by rw [insertAt_nil]; exact h⟩
  rw [if_neg h0]
  split
  · obtain ⟨B, hB, hd⟩ := insertLines_cells fmt (lines t) d offset h (newline_not_mem_lines t)
    rw [unlines_lines] at hB
    exact ⟨B, hB, hd⟩
  · rename_i hn
    rw [insertLine_fParas]
    exact ⟨_, inserted_chars (fun g hg => by rw [hg]; rfl) hn, h.insertParas d.fDefault offset fmt h0⟩

end Writer
end Prose
