import Mathlib.Data.List.Forall2
import Prose.WriterDoc
/-!
# WriterFlat — the document as one list of cells

`cells ps` lists the bytes of the paragraphs with their formats, a break with the paragraph's format in front of each
paragraph, so that the byte or separator at offset `o` is the cell `o + 1`.  On tiled paragraphs every edit is a splice of
the cells: `Insert` and `SplitPara` put cells in, `Remove` cuts them out, `ApplyFormat` maps a span.
-/
namespace Prose
namespace Writer

open Splice List

inductive Cell
  | brk (format : PWParaFormat)
  | ch (byte : Byte) (format : PWCharFormat)

/-- `ApplyFormat` on one cell. -/
def Cell.restyle (f : PWCharFormat) : Cell → Cell
  | .brk p  => .brk p
  | .ch b _ => .ch b f

def Para.cells (p : Para) : List Cell := .brk p.format :: List.zipWith Cell.ch p.text (formats p.runs)

def cells (ps : List Para) : List Cell := ps.flatMap Para.cells

def Para.Tiled (p : Para) : Prop := Tiles 0 p.runs p.text.length

def Tiled (ps : List Para) : Prop := ∀ p ∈ ps, p.Tiled

theorem tiled_append {ps qs : List Para} : Tiled (ps ++ qs) ↔ Tiled ps ∧ Tiled qs := by
  simp only [Tiled, mem_append, or_imp, forall_and]

theorem tiled_cons {p : Para} {ps : List Para} : Tiled (p :: ps) ↔ p.Tiled ∧ Tiled ps := by
  simp only [Tiled, mem_cons, forall_eq_or_imp]

@[simp] theorem tiled_nil : Tiled [] := by simp [Tiled]

@[simp] theorem cells_nil : cells [] = [] := rfl

@[simp] theorem cells_cons (p : Para) (ps : List Para) : cells (p :: ps) = p.cells ++ cells ps := rfl

@[simp] theorem cells_append (ps qs : List Para) : cells (ps ++ qs) = cells ps ++ cells qs := flatMap_append

@[simp] theorem byteSpan_nil : byteSpan [] = 0 := rfl

@[simp] theorem byteSpan_cons (p : Para) (ps : List Para) : byteSpan (p :: ps) = p.text.length + 1 + byteSpan ps := by
  simp [byteSpan]

@[simp] theorem byteSpan_append (ps qs : List Para) : byteSpan (ps ++ qs) = byteSpan ps + byteSpan qs := by
  simp [byteSpan]

theorem byteSpan_pos {ps : List Para} (h : ps ≠ []) : 0 < byteSpan ps := by
  cases ps with
  | nil => contradiction
  | cons p ps => rw [byteSpan_cons]; omega

theorem docLength_add_one {ps : List Para} (h : ps ≠ []) : docLength ps + 1 = byteSpan ps := by
  have := byteSpan_pos h
  unfold docLength
  omega

theorem Para.Tiled.length_formats {p : Para} (h : p.Tiled) : (formats p.runs).length = p.text.length := by
  rw [Tiles.length_formats h]
  omega

theorem Para.Tiled.length_cells {p : Para} (h : p.Tiled) : p.cells.length = p.text.length + 1 := by
  rw [Para.cells, length_cons, length_zipWith, h.length_formats, Nat.min_self]

theorem Tiled.length_cells : ∀ {ps : List Para}, Tiled ps → (cells ps).length = byteSpan ps
  | [], _ => rfl
  | p :: ps, h => by
    obtain ⟨hp, hps⟩ := tiled_cons.1 h
    rw [cells_cons, length_append, hp.length_cells, hps.length_cells, byteSpan_cons]

/-! ## Addresses -/

theorem locate_mid {p : Para} (post : List Para) {k : Nat} (hk : k ≤ p.text.length) : ∀ pre : List Para,
    locate (pre ++ p :: post) (byteSpan pre + k) = (pre.length, k)
  | [] => by
    cases post with
    | nil => simp [locate, hk]
    | cons q post => simp [locate, hk]
  | x :: pre => by
    have ih := locate_mid post hk pre
    obtain ⟨q, rest, hq⟩ : ∃ q rest, pre ++ p :: post = q :: rest := by cases pre <;> simp
    rw [cons_append, hq, locate, if_neg (by rw [byteSpan_cons]; omega), ← hq,
      show byteSpan (x :: pre) + k - (x.text.length + 1) = byteSpan pre + k by rw [byteSpan_cons]; omega, ih,
      length_cons]

/-- **An offset falls into one paragraph**, clipped at the end of the document. -/
theorem locate_spec {ps : List Para} (hne : ps ≠ []) (offset : Nat) : ∃ pre p post k, ps = pre ++ p :: post ∧
    locate ps offset = (pre.length, k) ∧ k ≤ p.text.length ∧ byteSpan pre + k = min offset (docLength ps) := by
  induction ps generalizing offset with
  | nil => contradiction
  | cons p ps ih =>
    cases ps with
    | nil =>
      refine ⟨[], p, [], min offset p.text.length, rfl, rfl, Nat.min_le_right .., ?_⟩
      simp [docLength]
    | cons q ps =>
      have hpos := byteSpan_pos (cons_ne_nil q ps)
      rw [locate]
      by_cases ho : offset ≤ p.text.length
      · refine ⟨[], p, q :: ps, offset, rfl, by rw [if_pos ho]; rfl, ho, ?_⟩
        rw [byteSpan_nil, docLength, byteSpan_cons]
        omega
      obtain ⟨pre, r, post, k, h1, h2, h3, h4⟩ := ih (cons_ne_nil q ps) (offset - (p.text.length + 1))
      refine ⟨p :: pre, r, post, k, by rw [h1, cons_append], by rw [if_neg ho, h2]; rfl, h3, ?_⟩
      rw [docLength] at h4 ⊢
      rw [byteSpan_cons, byteSpan_cons p]
      omega

theorem paraAt_mid (pre : List Para) (p : Para) (post : List Para) : paraAt (pre ++ p :: post) pre.length = p := by
  simp [paraAt]

theorem paraStart_mid (pre : List Para) (p : Para) (post : List Para) :
    paraStart (pre ++ p :: post) pre.length = byteSpan pre := by
  rw [paraStart, take_left' rfl]

theorem modify_mid (pre : List Para) (p : Para) (post : List Para) (f : Para → Para) :
    (pre ++ p :: post).modify pre.length f = pre ++ f p :: post := by
  rw [modify_eq_take_cons_drop (by simp)]
  simp

theorem drop_mid (pre : List Para) (p : Para) (post : List Para) : (pre ++ p :: post).drop pre.length = p :: post :=
  drop_left' rfl

theorem take_mid (pre : List Para) (p : Para) (post : List Para) : (pre ++ p :: post).take pre.length = pre :=
  take_left' rfl

theorem forall₂_modify {R : Para → Para → Prop} (hr : ∀ p, R p p) {f : Para → Para} (hf : ∀ p, R p (f p)) :
    ∀ (ps : List Para) (i : Nat), List.Forall₂ R ps (ps.modify i f)
  | [], i => by cases i <;> exact List.Forall₂.nil
  | p :: ps, 0 => List.Forall₂.cons (hf p) (List.forall₂_same.2 (fun p _ => hr p))
  | p :: ps, i + 1 => List.Forall₂.cons (hr p) (forall₂_modify hr hf ps i)

theorem forall₂_trans {R : Para → Para → Prop} (ht : ∀ p q r, R p q → R q r → R p r) {ps qs rs : List Para}
    (h : List.Forall₂ R ps qs) (h' : List.Forall₂ R qs rs) : List.Forall₂ R ps rs := by
  induction h generalizing rs with
  | nil => exact h'
  | cons hp _ ih =>
    cases h' with
    | cons hq hqs => exact List.Forall₂.cons (ht _ _ _ hp hq) (ih hqs)

/-- **`formatLoop` restyles paragraphs and does nothing else to them.** -/
theorem forall₂_formatLoop {R : Para → Para → Prop} (hr : ∀ p, R p p) (ht : ∀ p q r, R p q → R q r → R p r)
    (dflt fmt : PWCharFormat) (hs : ∀ p k take, 0 < take → R p (p.restyle dflt k take fmt)) :
    ∀ (fuel : Nat) (ps : List Para) (at' stop : Nat), List.Forall₂ R ps (formatLoop dflt fmt fuel ps at' stop)
  | 0, ps, _, _ => List.forall₂_same.2 (fun p _ => hr p)
  | fuel + 1, ps, at', stop => by
    unfold formatLoop
    by_cases hlt : at' < stop
    · rw [if_pos hlt]
      dsimp only
      generalize (if isSeparatorOffset ps at' then 0 else
        (paraAt ps (locate ps at').1).text.length - (locate ps at').2) = avail
      by_cases ha : avail = 0
      · rw [if_pos ha]
        exact forall₂_formatLoop hr ht dflt fmt hs fuel ps (at' + 1) stop
      · rw [if_neg ha]
        refine forall₂_trans ht (forall₂_modify hr (fun p => hs p _ _ ?_) ps _) (forall₂_formatLoop hr ht dflt fmt hs fuel _ _ stop)
        split <;> omega
    · rw [if_neg hlt]
      exact List.forall₂_same.2 (fun p _ => hr p)

/-! ## One paragraph at a time -/

theorem zipWith_mapSpan (i j : Nat) (f : PWCharFormat) (text : List Byte) (fs : List PWCharFormat) :
    List.zipWith Cell.ch text (mapSpan i j (fun _ => f) fs) = mapSpan i j (Cell.restyle f) (List.zipWith Cell.ch text fs) := by
  apply ext_getElem?
  intro k
  rw [mapSpan_getElem?, getElem?_zipWith, getElem?_zipWith, mapSpan_getElem?]
  cases text[k]? <;> cases fs[k]? <;> simp only [Option.map_none, Option.map_some]
  split <;> rfl

theorem Para.Tiled.insertText {p : Para} {k : Nat} {t : List Byte} (h : p.Tiled) (dflt f : PWCharFormat) (hk : k ≤ p.text.length) (ht : t ≠ []) :
    (p.insertText dflt k t f).Tiled ∧ (p.insertText dflt k t f).cells = insertAt (k + 1) (t.map (Cell.ch · f)) p.cells := by
  have hpos : 0 < t.length := length_pos_iff.2 ht
  obtain ⟨h1, h2⟩ := insertRuns_spec (f := f) h hk hpos
  obtain ⟨h3, h4⟩ := normalizeRuns_spec dflt h1
  constructor
  · unfold Para.Tiled
    simp only [Para.insertText, length_insertAt]
    exact h3
  · simp only [Para.cells, Para.insertText]
    rw [h4, h2, zipWith_insertAt h.length_formats.symm (by simp), zipWith_replicate_right]
    rfl

theorem Para.Tiled.eraseText {p : Para} (h : p.Tiled) (dflt : PWCharFormat) (k take : Nat) (ht : 0 < take)
    (hk : k + take ≤ p.text.length) :
    (p.eraseText dflt k take).Tiled ∧ (p.eraseText dflt k take).cells = cut (k + 1) (k + 1 + take) p.cells := by
  obtain ⟨h1, h2⟩ := eraseRuns_spec h ht hk
  obtain ⟨h3, h4⟩ := normalizeRuns_spec dflt h1
  constructor
  · unfold Para.Tiled
    simp only [Para.eraseText]
    rw [length_cut (by omega) hk, show p.text.length - (k + take - k) = p.text.length - take by omega]
    exact h3
  · simp only [Para.cells, Para.eraseText]
    rw [h4, h2, zipWith_cut h.length_formats.symm, show k + 1 + take = k + take + 1 by omega]
    rfl

theorem Para.Tiled.mergeNext {p q : Para} (hp : p.Tiled) (hq : q.Tiled) :
    (p.mergeNext q).Tiled ∧ (p.mergeNext q).cells = p.cells ++ q.cells.tail := by
  constructor
  · unfold Para.Tiled
    simp only [Para.mergeNext, length_append]
    refine Tiles.append hp ?_
    have := Tiles.shift p.text.length hq
    rwa [Int.zero_add, Int.add_comm, ← Int.natCast_add] at this
  · simp only [Para.cells, Para.mergeNext, formats_append, formats_shiftRuns, tail_cons]
    rw [zipWith_append hp.length_formats.symm]
    rfl

theorem Para.Tiled.restyle {p : Para} {k take : Nat} (h : p.Tiled) (dflt fmt : PWCharFormat) (ht : 0 < take) : (p.restyle dflt k take fmt).Tiled ∧
      (p.restyle dflt k take fmt).cells = mapSpan (k + 1) (k + 1 + take) (Cell.restyle fmt) p.cells := by
  obtain ⟨h1, h2⟩ : Tiles 0 (styleRuns k take fmt p.runs) p.text.length ∧ _ := styleRuns_spec (by omega) h
  obtain ⟨h3, h4⟩ := normalizeRuns_spec dflt h1
  refine ⟨h3, ?_⟩
  simp only [Para.cells, Para.restyle]
  rw [h4, h2, zipWith_mapSpan, show k + 1 + take = k + take + 1 by omega, mapSpan_cons]
  congr 2

theorem Para.Tiled.splitHead {p : Para} {k : Nat} (h : p.Tiled) (dflt : PWCharFormat) (hk : k ≤ p.text.length) :
    (p.splitHead dflt k).Tiled ∧ (p.splitHead dflt k).cells = p.cells.take (k + 1) := by
  obtain ⟨h1, h2⟩ := headRuns_spec (k := k) h
  rw [show min (0 : Int) k = 0 by omega, show min (p.text.length : Int) k = k by omega] at h1
  obtain ⟨h3, h4⟩ := normalizeRuns_spec dflt h1
  constructor
  · unfold Para.Tiled
    simp only [Para.splitHead, length_take, Nat.min_eq_left hk]
    exact h3
  · simp only [Para.cells, Para.splitHead]
    rw [h4, h2, take_succ_cons, take_zipWith, show ((k : Int) - 0).toNat = k by omega]

theorem Para.Tiled.splitTail {p : Para} {k : Nat} (h : p.Tiled) (dflt : PWCharFormat) (id : Nat) (hk : k ≤ p.text.length) :
    (p.splitTail dflt k id).Tiled ∧ (p.splitTail dflt k id).cells = .brk p.format :: p.cells.drop (k + 1) := by
  obtain ⟨h1, h2⟩ := tailRuns_spec (k := k) h
  rw [show max (0 : Int) k - k = 0 by omega,
    show max (p.text.length : Int) k - k = ((p.text.length - k : Nat) : Int) by omega] at h1
  obtain ⟨h3, h4⟩ := normalizeRuns_spec dflt h1
  constructor
  · unfold Para.Tiled
    simp only [Para.splitTail, length_drop]
    exact h3
  · simp only [Para.cells, Para.splitTail]
    rw [h4, h2, drop_succ_cons, drop_zipWith, show ((k : Int) - 0).toNat = k by omega]

/-! ## The whole document -/

theorem Tiled.insertParas {ps : List Para} {t : List Byte} (h : Tiled ps) (hne : ps ≠ []) (dflt : PWCharFormat)
    (offset : Nat) (fmt : Option PWCharFormat) (ht : t ≠ []) :
    Tiled (insertParas dflt ps offset t fmt) ∧
      cells (insertParas dflt ps offset t fmt) =
        insertAt (min offset (docLength ps) + 1) (t.map (Cell.ch · (fmt.getD
          ((paraAt ps (locate ps offset).1).formatForInsert dflt (locate ps offset).2)))) (cells ps) := by
  obtain ⟨pre, p, post, k, rfl, hloc, hk, hmin⟩ := locate_spec hne offset
  obtain ⟨hpre, hpp⟩ := tiled_append.1 h
  obtain ⟨hp, hpost⟩ := tiled_cons.1 hpp
  rw [Writer.insertParas, hloc, modify_mid, paraAt_mid]
  dsimp only
  generalize fmt.getD (p.formatForInsert dflt k) = f
  obtain ⟨h1, h2⟩ := hp.insertText dflt f hk ht
  refine ⟨tiled_append.2 ⟨hpre, tiled_cons.2 ⟨h1, hpost⟩⟩, ?_⟩
  rw [cells_append, cells_cons, h2, cells_append, cells_cons, ← hmin, ← hpre.length_cells, Nat.add_assoc,
    insertAt_append_right, insertAt_append_left (by rw [hp.length_cells]; omega)]

theorem Tiled.splitParas {ps : List Para} (h : Tiled ps) (hne : ps ≠ []) (dflt : PWCharFormat) (offset id : Nat) :
    Tiled (splitParas dflt ps offset id) ∧
      cells (splitParas dflt ps offset id) =
        insertAt (min offset (docLength ps) + 1) [.brk (paraAt ps (locate ps offset).1).format] (cells ps) := by
  obtain ⟨pre, p, post, k, rfl, hloc, hk, hmin⟩ := locate_spec hne offset
  obtain ⟨hpre, hpp⟩ := tiled_append.1 h
  obtain ⟨hp, hpost⟩ := tiled_cons.1 hpp
  rw [Writer.splitParas, hloc]
  dsimp only
  rw [drop_mid, take_mid, paraAt_mid]
  dsimp only
  obtain ⟨h1, h2⟩ := hp.splitHead dflt hk
  obtain ⟨h3, h4⟩ := hp.splitTail dflt id hk
  refine ⟨tiled_append.2 ⟨hpre, tiled_cons.2 ⟨h1, tiled_cons.2 ⟨h3, hpost⟩⟩⟩, ?_⟩
  rw [cells_append, cells_cons, cells_cons, h2, h4, cells_append, cells_cons, ← hmin, ← hpre.length_cells, Nat.add_assoc,
    insertAt_append_right, insertAt_append_left (by rw [hp.length_cells]; omega)]
  simp only [insertAt, append_assoc, cons_append, nil_append]

/-! The loop of `Remove`, turn by turn. -/

/-- A turn that ends with the paragraph: its bytes from `k` on go. -/
def Para.eraseRest (dflt : PWCharFormat) (p : Para) (k : Nat) : Para :=
  if p.text.length - k > 0 then p.eraseText dflt k (p.text.length - k) else p

def Para.saveRest (p : Para) (k base : Nat) (saved : ImageTable) : ImageTable :=
  if p.text.length - k > 0 then p.saveImages k (p.text.length - k) base saved else saved

theorem removeLoop_done (dflt : PWCharFormat) (base k : Nat) (rest : List Para) (p : Para) (saved : ImageTable) :
    removeLoop dflt base k rest p 0 saved = ((p, rest), saved) := by
  unfold Writer.removeLoop
  rfl

theorem removeLoop_within (dflt : PWCharFormat) (base : Nat) {k left : Nat} {p : Para} (h0 : 0 < left)
    (h : k + left ≤ p.text.length) (rest : List Para) (saved : ImageTable) :
    removeLoop dflt base k rest p left saved = ((p.eraseText dflt k left, rest), p.saveImages k left base saved) := by
  unfold Writer.removeLoop
  simp only [if_neg (Nat.ne_of_gt h0), if_neg (Nat.not_lt.2 h), if_pos h0, gt_iff_lt]
  cases rest <;> rfl

theorem removeLoop_crosses (dflt : PWCharFormat) (base : Nat) {k left : Nat} {p : Para} (hk : k ≤ p.text.length)
    (h : p.text.length < k + left) (next : Para) (rest : List Para) (saved : ImageTable) :
    removeLoop dflt base k (next :: rest) p left saved =
      removeLoop dflt base k rest ((p.eraseRest dflt k).mergeNext next) (left - (p.text.length - k + 1))
        (p.saveRest k base saved) := by
  conv => lhs; unfold Writer.removeLoop
  simp only [if_neg (show ¬ left = 0 by omega), gt_iff_lt, if_pos h]
  rfl

theorem removeLoop_past (dflt : PWCharFormat) (base : Nat) {k left : Nat} {p : Para} (hk : k ≤ p.text.length)
    (h : p.text.length < k + left) (saved : ImageTable) :
    removeLoop dflt base k [] p left saved = ((p.eraseRest dflt k, []), p.saveRest k base saved) := by
  unfold Writer.removeLoop
  simp only [if_neg (show ¬ left = 0 by omega), gt_iff_lt, if_pos h]
  rfl

theorem eraseRest_of {P : Para → Prop} {dflt : PWCharFormat} {p : Para} {k : Nat} (hp : P p)
    (he : ∀ take, 0 < take → k + take ≤ p.text.length → P (p.eraseText dflt k take)) (hk : k ≤ p.text.length) :
    P (p.eraseRest dflt k) := by
  unfold Para.eraseRest
  split
  · rename_i h
    exact he _ h (by omega)
  · exact hp

theorem length_eraseRest (dflt : PWCharFormat) {p : Para} {k : Nat} (hk : k ≤ p.text.length) :
    (p.eraseRest dflt k).text.length = k := by
  unfold Para.eraseRest
  split
  · show (cut _ _ p.text).length = k
    rw [length_cut (by omega) (by omega)]
    omega
  · omega

theorem merged_text_length (dflt : PWCharFormat) {p : Para} {k : Nat} (hk : k ≤ p.text.length) (next : Para) :
    ((p.eraseRest dflt k).mergeNext next).text.length = k + next.text.length := by
  have := length_eraseRest dflt hk
  show ((p.eraseRest dflt k).text ++ next.text).length = _
  rw [length_append, this]

/-- **The turns of `removeLoop`**: nothing left, a range within the paragraph, one that swallows the separator, one past the
last paragraph. -/
theorem removeLoop_induct (dflt : PWCharFormat) (base : Nat) {k : Nat}
    {motive : ∀ (_ : List Para) (p : Para) (_ : Nat) (_ : ImageTable), k ≤ p.text.length → Prop}
    (done : ∀ rest p saved hk, motive rest p 0 saved hk)
    (within : ∀ rest p left saved hk, 0 < left → k + left ≤ p.text.length → motive rest p left saved hk)
    (crosses : ∀ next rest p left saved hk hk', p.text.length < k + left →
      motive rest ((p.eraseRest dflt k).mergeNext next) (left - (p.text.length - k + 1)) (p.saveRest k base saved) hk' →
      motive (next :: rest) p left saved hk)
    (past : ∀ p left saved hk, p.text.length < k + left → motive [] p left saved hk) :
    ∀ rest p left saved hk, motive rest p left saved hk := by
  intro rest
  induction rest with
  | nil =>
    intro p left saved hk
    by_cases hc : p.text.length < k + left
    · exact past p left saved hk hc
    · cases left with
      | zero => exact done [] p saved hk
      | succ left => exact within [] p _ saved hk (Nat.succ_pos left) (by omega)
  | cons next rest ih =>
    intro p left saved hk
    by_cases hc : p.text.length < k + left
    · have hk' : k ≤ ((p.eraseRest dflt k).mergeNext next).text.length := by
        rw [merged_text_length dflt hk]
        omega
      exact crosses next rest p left saved hk hk' hc (ih _ _ _ hk')
    · cases left with
      | zero => exact done _ p saved hk
      | succ left => exact within _ p _ saved hk (Nat.succ_pos left) (by omega)

theorem Para.Tiled.eraseRest {p : Para} (h : p.Tiled) (dflt : PWCharFormat) {k : Nat} (hk : k ≤ p.text.length) :
    (p.eraseRest dflt k).Tiled ∧ (p.eraseRest dflt k).cells = p.cells.take (k + 1) := by
  unfold Para.eraseRest
  split
  · rename_i ht
    obtain ⟨h1, h2⟩ := h.eraseText dflt k (p.text.length - k) ht (by omega)
    refine ⟨h1, ?_⟩
    rw [h2, cut, drop_eq_nil_of_le (by rw [h.length_cells]; omega), append_nil]
  · exact ⟨h, (take_of_length_le (by rw [h.length_cells]; omega)).symm⟩

/-- **The loop of `Remove` cuts its range out of the cells.** -/
theorem Tiled.removeLoop (dflt : PWCharFormat) (base : Nat) {k : Nat} (rest : List Para) {p : Para} (left : Nat)
    (saved : ImageTable) (hp : p.Tiled) (hrest : Tiled rest) (hk : k ≤ p.text.length)
    (hleft : k + 1 + left ≤ byteSpan (p :: rest)) :
    (removeLoop dflt base k rest p left saved).1.1.Tiled ∧ Tiled (removeLoop dflt base k rest p left saved).1.2 ∧
      (removeLoop dflt base k rest p left saved).1.1.cells ++ cells (removeLoop dflt base k rest p left saved).1.2 =
        cut (k + 1) (k + 1 + left) (p.cells ++ cells rest) := by
  induction rest, p, left, saved, hk using removeLoop_induct dflt base with
  | done rest p saved hk =>
    rw [removeLoop_done, Nat.add_zero, cut_self]
    exact ⟨hp, hrest, rfl⟩
  | within rest p left saved hk h0 hin =>
    obtain ⟨h1, h2⟩ := hp.eraseText dflt k left h0 hin
    rw [removeLoop_within dflt base h0 hin]
    refine ⟨h1, hrest, ?_⟩
    rw [h2, cut_append (by omega), show k + 1 - p.cells.length = 0 by rw [hp.length_cells]; omega,
      show k + 1 + left - p.cells.length = 0 by rw [hp.length_cells]; omega, cut_self]
  | crosses next rest p left saved hk hk' hc ih =>
    -- the rest of this paragraph goes, then its separator
    obtain ⟨hn, hr⟩ := tiled_cons.1 hrest
    obtain ⟨hpt, hpc⟩ := hp.eraseRest dflt hk
    obtain ⟨hm1, hm2⟩ := hpt.mergeNext hn
    rw [byteSpan_cons, byteSpan_cons] at hleft
    rw [removeLoop_crosses dflt base hk hc]
    obtain ⟨h1, h2, h3⟩ := ih hm1 hr (by rw [byteSpan_cons, merged_text_length dflt hk]; omega)
    refine ⟨h1, h2, ?_⟩
    rw [h3, hm2, hpc, cells_cons]
    have ht : (p.cells.take (k + 1)).length = k + 1 := by rw [length_take, hp.length_cells]; omega
    have hd : (p.cells ++ (next.cells ++ cells rest)).drop (k + 1 + left) =
        (next.cells.tail ++ cells rest).drop (left - (p.text.length - k + 1)) := by
      rw [drop_append, drop_eq_nil_of_le (by rw [hp.length_cells]; omega), nil_append, hp.length_cells,
        show k + 1 + left - (p.text.length + 1) = left - (p.text.length - k + 1) + 1 by omega]
      rfl
    rw [cut, cut, hd, append_assoc, take_append_of_le_length (by omega), take_of_length_le (by omega),
      take_append_of_le_length (by rw [hp.length_cells]; omega), drop_append, ht,
      drop_eq_nil_of_le (by omega), nil_append]
    congr 2
    omega
  | past p left saved hk hc =>
    rw [byteSpan_cons, byteSpan_nil] at hleft
    omega

theorem Tiled.removeParas {ps : List Para} {offset length : Nat} (h : Tiled ps) (hne : ps ≠ []) (dflt : PWCharFormat)
    (hr : offset + length ≤ docLength ps) :
    Tiled (removeParas dflt ps offset length).1 ∧
      cells (removeParas dflt ps offset length).1 = cut (offset + 1) (offset + 1 + length) (cells ps) := by
  obtain ⟨pre, p, post, k, rfl, hloc, hk, hmin⟩ := locate_spec hne offset
  obtain ⟨hpre, hpp⟩ := tiled_append.1 h
  obtain ⟨hp, hpost⟩ := tiled_cons.1 hpp
  have hL := docLength_add_one hne
  rw [byteSpan_append] at hL
  rw [Writer.removeParas, hloc]
  dsimp only
  rw [drop_mid, take_mid, paraStart_mid]
  dsimp only
  obtain ⟨h1, h2, h3⟩ := Tiled.removeLoop dflt (byteSpan pre) post length SortedMap.empty hp hpost hk (by omega)
  refine ⟨tiled_append.2 ⟨hpre, tiled_cons.2 ⟨h1, h2⟩⟩, ?_⟩
  rw [cells_append, cells_cons, h3, cells_append, cells_cons,
    show offset + 1 + length = (cells pre).length + (k + 1 + length) by rw [hpre.length_cells]; omega,
    show offset + 1 = (cells pre).length + (k + 1) by rw [hpre.length_cells]; omega, cut_append_right]

/-- Where the walk of a range stands at the end of a paragraph, the next cell is a break, if there is one. -/
theorem Tiled.cell_end {ps : List Para} (h : Tiled ps) (hne : ps ≠ []) {offset : Nat}
    (he : (locate ps offset).2 = (paraAt ps (locate ps offset).1).text.length) :
    ∀ c, (cells ps)[offset + 1]? = some c → ∃ f, c = .brk f := by
  obtain ⟨pre, p, post, k, rfl, hloc, hk, hmin⟩ := locate_spec hne offset
  rw [hloc, paraAt_mid] at he
  dsimp only at he
  have hL := docLength_add_one hne
  intro c hc
  have hlt := (List.getElem?_eq_some_iff.1 hc).1
  rw [h.length_cells] at hlt
  obtain ⟨hpre, hpp⟩ := tiled_append.1 h
  obtain ⟨hp, hpost⟩ := tiled_cons.1 hpp
  rw [cells_append, cells_cons, ← append_assoc, getElem?_append_right (by
    rw [length_append, hpre.length_cells, hp.length_cells]; omega)] at hc
  rw [show offset + 1 - (cells pre ++ p.cells).length = 0 by
    rw [length_append, hpre.length_cells, hp.length_cells]; omega] at hc
  cases post with
  | nil => cases hc
  | cons q post =>
    rw [cells_cons, Para.cells, cons_append, getElem?_cons_zero, Option.some.injEq] at hc
    exact ⟨q.format, hc.symm⟩

/-- **The loop of `ApplyFormat` restyles its range.** -/
theorem Tiled.formatLoop (dflt fmt : PWCharFormat) : ∀ (fuel : Nat) (ps : List Para) (at' stop : Nat), Tiled ps →
    ps ≠ [] → stop - at' ≤ fuel → Tiled (formatLoop dflt fmt fuel ps at' stop) ∧
      cells (formatLoop dflt fmt fuel ps at' stop) = mapSpan (at' + 1) (stop + 1) (Cell.restyle fmt) (cells ps) := by
  intro fuel
  induction fuel with
  | zero =>
    intro ps at' stop h hne hfuel
    exact ⟨h, (mapSpan_outside _ (by omega)).symm⟩
  | succ fuel ih =>
    intro ps at' stop h hne hfuel
    unfold Writer.formatLoop
    by_cases hlt : at' < stop
    · rw [if_pos hlt]
      have havail : (if isSeparatorOffset ps at' then 0 else
          (paraAt ps (locate ps at').1).text.length - (locate ps at').2) =
          (paraAt ps (locate ps at').1).text.length - (locate ps at').2 := by
        split
        · rename_i hs
          simp only [isSeparatorOffset, decide_eq_true_eq] at hs
          omega
        · rfl
      simp only [havail]
      by_cases hend : (paraAt ps (locate ps at').1).text.length - (locate ps at').2 = 0
      · rw [if_pos hend]
        obtain ⟨h1, h2⟩ := ih ps (at' + 1) stop h hne (by omega)
        refine ⟨h1, ?_⟩
        rw [h2]
        refine mapSpan_skip _ (fun c hc => ?_)
        have he : (locate ps at').2 = (paraAt ps (locate ps at').1).text.length := by
          obtain ⟨pre, p, post, k, rfl, hloc, hk, -⟩ := locate_spec hne at'
          rw [hloc, paraAt_mid] at hend ⊢
          dsimp only at hend ⊢
          omega
        obtain ⟨f, rfl⟩ := h.cell_end hne he c hc
        rfl
      · rw [if_neg hend]
        -- the stretch of the range inside this paragraph
        obtain ⟨pre, p, post, k, rfl, hloc, hk, hmin⟩ := locate_spec hne at'
        rw [hloc, paraAt_mid] at hend ⊢
        dsimp only at hend ⊢
        generalize htake : (if stop - at' > p.text.length - k then p.text.length - k else stop - at') = take
        have ht : 0 < take ∧ take ≤ p.text.length - k ∧ take ≤ stop - at' := by rw [← htake]; split <;> omega
        have hL := docLength_add_one hne
        rw [byteSpan_append, byteSpan_cons] at hL
        obtain ⟨hpre, hpp⟩ := tiled_append.1 h
        obtain ⟨hp, hpost⟩ := tiled_cons.1 hpp
        obtain ⟨hr1, hr2⟩ := hp.restyle dflt fmt (k := k) ht.1
        rw [modify_mid]
        obtain ⟨h1, h2⟩ := ih (pre ++ p.restyle dflt k take fmt :: post) (at' + take) stop
          (tiled_append.2 ⟨hpre, tiled_cons.2 ⟨hr1, hpost⟩⟩) (by simp) (by omega)
        refine ⟨h1, ?_⟩
        rw [h2, ← mapSpan_mapSpan (show at' + 1 ≤ at' + take + 1 by omega) (show at' + take + 1 ≤ stop + 1 by omega)]
        congr 1
        rw [cells_append, cells_cons, hr2, cells_append, cells_cons, mapSpan_append, mapSpan_append,
          mapSpan_outside (l := cells pre) _ (fun j hj => by rw [hpre.length_cells] at hj; omega),
          mapSpan_outside (l := cells post) _ (fun j hj => by rw [hpre.length_cells, hp.length_cells]; omega),
          hpre.length_cells, show at' + 1 - byteSpan pre = k + 1 by omega,
          show at' + take + 1 - byteSpan pre = k + 1 + take by omega]
    · rw [if_neg hlt]
      exact ⟨h, (mapSpan_outside _ (by omega)).symm⟩

/-! ## Reading a range -/

def Cell.byte : Cell → Byte
  | .brk _  => newline
  | .ch b _ => b

theorem map_byte_zipWith : ∀ {text : List Byte} {fs : List PWCharFormat}, text.length = fs.length →
    (List.zipWith Cell.ch text fs).map Cell.byte = text
  | [], _, _ => by simp
  | c :: text, f :: fs, h => by
    rw [zipWith_cons_cons, map_cons, map_byte_zipWith (Nat.succ.inj h)]
    rfl

theorem Para.Tiled.map_byte {p : Para} (h : p.Tiled) : p.cells.map Cell.byte = newline :: p.text := by
  rw [Para.cells, map_cons, map_byte_zipWith h.length_formats.symm]
  rfl

theorem Tiled.map_byte : ∀ {ps : List Para}, Tiled ps → ps ≠ [] → (cells ps).map Cell.byte = newline :: plainText ps
  | [p], h, _ => by
    rw [cells_cons, cells_nil, append_nil, (tiled_cons.1 h).1.map_byte]
    simp [plainText]
  | p :: q :: ps, h, _ => by
    obtain ⟨hp, hps⟩ := tiled_cons.1 h
    rw [cells_cons, map_append, hp.map_byte, hps.map_byte (cons_ne_nil q ps)]
    simp [plainText, intercalate_cons_cons]

/-- **`GetText` reads the bytes of its range.** -/
theorem Tiled.getText : ∀ {ps : List Para} (offset length : Nat), Tiled ps →
    getText ps offset length = (((cells ps).drop (offset + 1)).take length).map Cell.byte
  | [], offset, length, _ => by simp [Writer.getText]
  | p :: ps, offset, length, h => by
    obtain ⟨hp, hps⟩ := tiled_cons.1 h
    have hmap := hp.map_byte
    unfold Writer.getText
    by_cases h0 : length = 0
    · simp [h0]
    rw [if_neg h0, map_take, map_drop, cells_cons, map_append, hmap]
    by_cases hlt : p.text.length < offset
    · have hd : ((newline :: p.text) ++ (cells ps).map Cell.byte).drop (offset + 1) =
          ((cells ps).map Cell.byte).drop (offset - (p.text.length + 1) + 1) := by
        rw [drop_append, drop_eq_nil_of_le (by rw [length_cons]; omega), nil_append, length_cons]
        congr 1
        omega
      rw [if_pos hlt, hps.getText, map_take, map_drop, hd]
    · rw [if_neg hlt, drop_append_of_le_length (by rw [length_cons]; omega), drop_succ_cons,
        List.take_append]
      dsimp only
      by_cases hl : length ≤ (p.text.drop offset).length
      · rw [if_pos (Or.inl (by rw [length_take]; omega)), Nat.sub_eq_zero_of_le hl, take_zero,
          append_nil]
      rw [take_of_length_le (by omega)]
      cases ps with
      | nil => simp
      | cons q ps =>
        rw [if_neg (by simp only [reduceCtorEq, or_false]; omega), hps.getText, map_take, map_drop]
        congr 1
        rw [cells_cons, Para.cells, cons_append, map_cons,
          show length - (p.text.drop offset).length = length - (p.text.drop offset).length - 1 + 1 by omega,
          take_succ_cons]
        rfl

end Writer
end Prose
