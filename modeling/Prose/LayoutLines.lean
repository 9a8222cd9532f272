import Mathlib.Data.List.Induction
import Prose.LayoutTable
/-!
# LayoutLines — a paragraph into lines

`LayoutParagraph`: words are taken as long as they fit in the column, blanks at a line's end are not counted as its bytes, and each line
is measured once more for its height and its width.
-/
namespace Prose
namespace Writer

open List

variable {F : Type} [Points F] [DecidableLE F] [DecidableLT F] (fonts : Fonts F)

/-! ## The model -/

/-- `listSeq`, 1 for the first of a row of numbered paragraphs. -/
def listSeqOf (ps : List Para) (para : Nat) : Nat :=
  if (paraAt ps para).format.listKind = .number then
    ((ps.take para).reverse.takeWhile (fun p => p.format.listKind = .number)).length + 1
  else 0

/-- A turn of the loop over the blanks in front of a word; the state is where it reads and how wide the word is so far. -/
def blankBody (p : Para) (lineX edge : F) : Nat × F → Option (Nat × F)
  | (i, wordWidth) => (byteWidth fonts p true i lineX edge).map fun w => (utf8Next p.text i p.text.length, wordWidth + w)

def letterBody (p : Para) : Nat × F → Option (Nat × F)
  | (i, wordWidth) =>
    if p.imageAt F i then some (utf8Next p.text i p.text.length, wordWidth + (p.imageSizeAt i).1)
    else (runAt p.runs i).map fun r =>
      (utf8Next p.text i p.text.length, wordWidth + fonts.stringWidth (fontForRun r) (slice p.text i (i + 1)))

def nextWord (fuel : Nat) (p : Para) (i : Nat) (lineX edge : F) : Option (Nat × F) := do
  let s ← Loops.whileDo (fun s => decide (s.1 < p.text.length) && breakAt p.text s.1) (blankBody fonts p lineX edge) fuel (i, 0)
  Loops.whileDo (fun s => decide (s.1 < p.text.length) && !breakAt p.text s.1) (letterBody fonts p) fuel s

/-- A turn of the loop that fills a line: `i`, `width`, `lastGood` and `lastBreak`. -/
def fillStep (fuel : Nat) (p : Para) (column lineEdge edge : F) (lineStart : Nat) :
    Nat × F × Nat × Int → Option ((Nat × F × Nat × Int) ⊕ (Nat × Int))
  | (i, width, lastGood, lastBreak) =>
    if i < p.text.length then
      (nextWord fonts fuel p i (lineEdge + width) edge).map fun (j, wordWidth) =>
        if width + wordWidth ≤ column ∨ lastGood = lineStart then
          .inl (j, width + wordWidth, j, if i < j ∧ breakAt p.text (j - 1) then (j : Int) else lastBreak)
        else .inr (lastGood, lastBreak)
    else some (.inr (lastGood, lastBreak))

/-- A turn of the loop over a line's fonts: where it reads, the ascent and the descent so far. -/
def heightBody (p : Para) : Nat × F × F → Option (Nat × F × F)
  | (b, ascent, descent) =>
    if p.imageAt F b then some (utf8Next p.text b p.text.length, maxF ascent (p.imageSizeAt b).2, descent)
    else (runAt p.runs b).map fun r =>
      let fh := fonts.getHeight (fontForRun r)
      (utf8Next p.text b p.text.length, maxF ascent fh.ascent, maxF descent (fh.descent + fh.leading))

def lineHeights (fuel : Nat) (p : Para) (lineStart lineEnd : Nat) : Option (F × F) := do
  let s ← Loops.whileDo (fun s => decide (s.1 < lineEnd)) (heightBody fonts p) fuel (lineStart, 0, 0)
  if s.2.1 == 0 then
    (p.runs.head?).map fun r => ((fonts.getHeight (fontForRun r)).ascent,
      (fonts.getHeight (fontForRun r)).descent + (fonts.getHeight (fontForRun r)).leading)
  else some s.2

/-- A turn of the loop over a line's runs.  Where it goes to in front of the text its next turn reads outside of `runOf`. -/
def widthBody (p : Para) (lineEdge edge : F) (lineEnd : Nat) : Nat × F → Option (Nat × F)
  | (b, lineW) =>
    if p.imageAt F b then some (utf8Next p.text b p.text.length, lineW + (p.imageSizeAt b).1)
    else do
      let r ← runAt p.runs b
      let segEnd : Int := min r.rEnd lineEnd
      if segEnd < 0 then none
      else if isByte 9 p.text b ∧ segEnd = b + 1 then
        (byteWidth fonts p true b (lineEdge + lineW) edge).map fun w => (segEnd.toNat, lineW + w)
      else some (segEnd.toNat, lineW + fonts.stringWidth (fontForRun r) (slice p.text b segEnd))

def lineWidth (fuel : Nat) (p : Para) (lineEdge edge : F) (lineStart lineEnd : Nat) : Option F :=
  (Loops.whileDo (fun s => decide (s.1 < lineEnd)) (widthBody fonts p lineEdge edge lineEnd) fuel (lineStart, 0)).map Prod.snd

/-- The paragraph's text box: its left edge, the room a list's marker takes, the column. -/
structure TextBox (F : Type) where
  edge : F
  listIndent : F
  column : F

def textBox (setup : PWPageSetup F) (fmt : PWParaFormat) : TextBox F :=
  let edge := setup.marginLeft + pt fmt.indentLeft
  let listIndent := if fmt.listKind ≠ .none then pt 18 else pt 0
  ⟨edge, listIndent, setup.pageWidth - setup.marginRight - pt fmt.indentRight - edge - listIndent⟩

/-- The line at `lineStart`, and where the next one starts. -/
def oneLine (fuel : Nat) (setup : PWPageSetup F) (ps : List Para) (para lineStart : Nat) : Option (Line F × Nat) := do
  let p := paraAt ps para
  let box : TextBox F := textBox setup p.format
  let first := decide (lineStart = 0)
  let lineEdge := box.edge + box.listIndent + (if first then pt p.format.indentFirst else pt 0)
  let filled ← Loops.loop (fillStep fonts fuel p box.column lineEdge box.edge lineStart) fuel (lineStart, 0, lineStart, -1)
  let lastGood := if filled.1 = lineStart then p.text.length else filled.1
  let lineEnd := trimEnd p.text lineStart lastGood
  let heights ← lineHeights fonts fuel p lineStart lineEnd
  let lineW ← lineWidth fonts fuel p lineEdge box.edge lineStart lineEnd
  let line : Line F :=
    { para := para
      startPara := lineStart
      length := lineEnd - lineStart
      x := match p.format.alignment with
        | .center => lineEdge + (box.column - lineW) / pt 2
        | .right => lineEdge + box.column - lineW
        | _ => lineEdge
      y := 0
      width := lineW
      height := (heights.1 + heights.2) * pt p.format.lineSpacing
      baseline := heights.1 * pt p.format.lineSpacing
      last := decide (p.text.length ≤ lineEnd)
      listMark := if first then p.format.listKind else .none
      listSeq := if first ∧ p.format.listKind ≠ .none then listSeqOf ps para else 0 }
  let next : Int := if lineEnd < filled.2 then filled.2 else lastGood
  some (line, if next ≤ lineStart then (if lineStart < lastGood then lastGood else lineEnd) else next.toNat)

def lineStep (fuel : Nat) (setup : PWPageSetup F) (ps : List Para) (para : Nat) :
    List (Line F) × Nat → Option ((List (Line F) × Nat) ⊕ List (Line F))
  | (lines, lineStart) =>
    if lineStart < (paraAt ps para).text.length ∨ lineStart = 0 ∧ (paraAt ps para).text.length = 0 then
      (oneLine fonts fuel setup ps para lineStart).map fun (line, next) =>
        if line.last then .inr (lines ++ [line]) else .inl (lines ++ [line], next)
    else some (.inr lines)

def layoutParagraph (fuel : Nat) (L : PWLayout F) (ps : List Para) (para : Nat) : Option (PWLayout F) :=
  if (paraAt ps para).isRow then layoutTableRow fonts fuel L ps para
  else
    (Loops.loop (lineStep fonts fuel L.fSetup ps para) fuel (L.fLines, 0)).map fun lines =>
      let box : TextBox F := textBox L.fSetup (paraAt ps para).format
      { L with
        fLines :=
          if (lines.getLast?).all (fun l => l.para ≠ para) then
            lines ++ [{ para := para, x := box.edge + box.listIndent, y := 0, width := 0, height := 0, baseline := 0, last := true }]
          else lines }

/-! ## Runs over bytes -/

theorem runOf_concat (runs : List PWRun) (r : PWRun) (i : Nat) :
    runOf (runs ++ [r]) i = if r.covers i then runs.length else runOf runs i := by
  unfold runOf
  rw [zipIdx_append, foldl_append, zipIdx_singleton, foldl_cons, foldl_nil, Nat.zero_add]

theorem runAt_concat (runs : List PWRun) (r : PWRun) (i : Nat) (h : runOf runs i < runs.length) :
    runAt (runs ++ [r]) i = if r.covers i then some r else runAt runs i := by
  unfold runAt
  rw [runOf_concat]
  split
  · rw [getElem?_append_right (Nat.le_refl _), Nat.sub_self]
    rfl
  · rw [getElem?_append_left h]

theorem runAt_spec (i : Nat) (runs : List PWRun) (hne : runs ≠ []) : runOf runs i < runs.length ∧
    ∃ r, runAt runs i = some r ∧ r ∈ runs ∧ ((∃ q ∈ runs, q.covers i = true) → r.covers i = true) := by
  induction runs using List.reverseRecOn with
  | nil => exact absurd rfl hne
  | append_singleton rs r ih =>
    by_cases hrs : rs = []
    · subst hrs
      refine ⟨?_, r, ?_, mem_singleton_self r, ?_⟩
      · unfold runOf
        simp
      · unfold runAt runOf
        simp
      · rintro ⟨q, hq, hcov⟩
        rwa [← mem_singleton.1 hq]
    · obtain ⟨hlt, q, hq, hmem, hcov⟩ := ih hrs
      rw [runAt_concat rs r i hlt, runOf_concat, length_append, length_singleton]
      by_cases hr : r.covers i = true
      · rw [if_pos hr, if_pos hr]
        exact ⟨Nat.lt_succ_self _, r, rfl, mem_append_right _ (mem_singleton_self r), fun _ => hr⟩
      rw [if_neg hr, if_neg hr]
      refine ⟨Nat.lt_succ_of_lt hlt, q, hq, mem_append_left _ hmem, ?_⟩
      rintro ⟨q', hq', hcov'⟩
      rcases mem_append.1 hq' with hq' | hq'
      · exact hcov ⟨q', hq', hcov'⟩
      · rw [mem_singleton.1 hq'] at hcov'
        exact absurd hcov' hr

theorem runAt_some {runs : List PWRun} (hne : runs ≠ []) (i : Nat) : ∃ r, runAt runs i = some r :=
  (runAt_spec i runs hne).2.imp fun _ h => h.1

/-- Every byte of the paragraph lies in one of its runs, and there is a run. -/
structure Para.Covered (p : Para) : Prop where
  runs : p.runs ≠ []
  covers : ∀ i < p.text.length, ∃ r ∈ p.runs, r.covers i = true

theorem Para.Covered.runAt {p : Para} (h : p.Covered) {i : Nat} (hi : i < p.text.length) :
    ∃ r, runAt p.runs i = some r ∧ r ∈ p.runs ∧ r.start ≤ i ∧ (i : Int) < r.rEnd := by
  obtain ⟨-, r, hr, hmem, hcov⟩ := runAt_spec i p.runs h.runs
  have := of_decide_eq_true (hcov (h.covers i hi))
  exact ⟨r, hr, hmem, this⟩

/-! ## Measuring -/

def Steps (text : List Byte) (B : Nat → Prop) : Prop := ∀ i, i < text.length → B i → B (utf8Next text i text.length)

theorem byteWidth_total {p : Para} (hruns : p.runs ≠ []) (i : Nat) (lineX edge : F) : ∃ w, byteWidth fonts p true i lineX edge = some w := by
  obtain ⟨r, hr⟩ := runAt_some hruns i
  unfold byteWidth
  split
  · exact ⟨_, rfl⟩
  split
  · exact ⟨_, rfl⟩
  · split
    · exact ⟨_, rfl⟩
    · exact ⟨_, by rw [hr, Option.map_some]⟩

omit [DecidableLE F] in
theorem letterBody_next {p : Para} {s t : Nat × F} (h : letterBody fonts p s = some t) : t.1 = utf8Next p.text s.1 p.text.length := by
  unfold letterBody at h
  dsimp only at h
  split at h
  · rw [← Option.some.inj h]
  · obtain ⟨r, -, rfl⟩ := Option.map_eq_some_iff.1 h
    rfl

/-- A place behind `lo` that was come to character by character. -/
structure Place (text : List Byte) (B : Nat → Prop) (lo i : Nat) : Prop where
  from' : lo ≤ i
  within : i ≤ text.length
  here : B i

theorem Place.next {text : List Byte} {B : Nat → Prop} (hB : Steps text B) {lo i : Nat} (h : Place text B lo i) (hi : i < text.length) :
    Place text B lo (utf8Next text i text.length) :=
  ⟨Nat.le_trans h.from' (Nat.le_of_lt (lt_utf8Next text hi)), utf8Next_le _ _ _, hB i hi h.here⟩

/-- **A word takes at least a byte.** -/
theorem nextWord_of {fuel : Nat} {p : Para} {B : Nat → Prop} (hB : Steps p.text B) {i : Nat} (hi : i < p.text.length) (hBi : B i)
    {lineX edge : F} {r : Nat × F} (h : nextWord fonts fuel p i lineX edge = some r) : i < r.1 ∧ Place p.text B i r.1 := by
  obtain ⟨s, hblanks, hletters⟩ := Option.bind_eq_some_iff.1 h
  obtain ⟨hs, hstop⟩ := Loops.whileDo_inv (fun s => Place p.text B i s.1) (fun s t hs ht hst => by
    obtain ⟨w, -, rfl⟩ := Option.map_eq_some_iff.1 hst
    rw [Bool.and_eq_true, decide_eq_true_eq] at ht
    exact hs.next hB ht.1) ⟨Nat.le_refl _, Nat.le_of_lt hi, hBi⟩ hblanks
  obtain ⟨hr, hstop'⟩ := Loops.whileDo_inv (fun t => s.1 ≤ t.1 ∧ Place p.text B i t.1) (fun t u ht hlt htu => by
    rw [Bool.and_eq_true, decide_eq_true_eq] at hlt
    have hnext := lt_utf8Next p.text hlt.1
    have hplace := ht.2.next hB hlt.1
    have hle := ht.1
    rw [letterBody_next fonts htu]
    exact ⟨by omega, hplace⟩) ⟨Nat.le_refl _, hs⟩ hletters
  refine ⟨?_, hr.2⟩
  -- the byte at `i` is a blank or it is not
  by_contra hnot
  have h0 := hr.1
  have h1 := hs.from'
  have h2 : s.1 = i := by omega
  have h3 : r.1 = i := by omega
  rw [h2, decide_eq_true hi, Bool.true_and] at hstop
  rw [h3, decide_eq_true hi, Bool.true_and, hstop] at hstop'
  exact absurd hstop' (by decide)

section
variable {fuel : Nat} {p : Para} (hruns : p.runs ≠ []) (hfuel : p.text.length < fuel)
include hruns hfuel

theorem nextWord_isSome (i : Nat) (lineX edge : F) : (nextWord fonts fuel p i lineX edge).isSome := by
  obtain ⟨s, hblanks, -⟩ := @Loops.whileDo_total _
    (fun s => decide (s.1 < p.text.length) && breakAt p.text s.1) (blankBody fonts p lineX edge)
    (fun _ => True) (fun s => p.text.length - s.1) (fun s _ ht => by
      obtain ⟨w, hw⟩ := byteWidth_total fonts hruns s.1 lineX edge
      rw [Bool.and_eq_true, decide_eq_true_eq] at ht
      have := lt_utf8Next p.text ht.1
      exact ⟨_, by rw [blankBody, hw, Option.map_some], trivial, by dsimp only; omega⟩) fuel (i, 0) (by dsimp only; omega) trivial
  obtain ⟨r, hletters, -⟩ := @Loops.whileDo_total _
    (fun s => decide (s.1 < p.text.length) && !breakAt p.text s.1) (letterBody fonts p)
    (fun _ => True) (fun s => p.text.length - s.1) (fun s _ ht => by
      obtain ⟨r, hr⟩ := runAt_some hruns s.1
      rw [Bool.and_eq_true, decide_eq_true_eq] at ht
      have := lt_utf8Next p.text ht.1
      unfold letterBody
      dsimp only
      split
      · exact ⟨_, rfl, trivial, by dsimp only; omega⟩
      · exact ⟨_, by rw [hr, Option.map_some], trivial, by dsimp only; omega⟩) fuel s (by omega) trivial
  rw [nextWord, Option.bind_eq_bind, hblanks, Option.bind_some, hletters]
  rfl

omit [DecidableLE F] in
theorem lineHeights_isSome (lineStart : Nat) {lineEnd : Nat} (hle : lineEnd ≤ p.text.length) :
    (lineHeights fonts fuel p lineStart lineEnd).isSome := by
  obtain ⟨s, hs, -⟩ := @Loops.whileDo_total _ (fun s => decide (s.1 < lineEnd)) (heightBody fonts p)
    (fun _ => True) (fun s => lineEnd - s.1) (fun s _ ht => by
      have hlt : s.1 < lineEnd := of_decide_eq_true ht
      have hnext := lt_utf8Next p.text (Nat.lt_of_lt_of_le hlt hle)
      obtain ⟨r, hr⟩ := runAt_some hruns s.1
      unfold heightBody
      dsimp only
      split
      · exact ⟨_, rfl, trivial, by dsimp only; omega⟩
      · exact ⟨_, by rw [hr, Option.map_some], trivial, by dsimp only; omega⟩) fuel (lineStart, 0, 0)
    (by dsimp only; omega) trivial
  obtain ⟨r, rs, hr⟩ := exists_cons_of_ne_nil hruns
  unfold lineHeights
  rw [hs, Option.bind_eq_bind, Option.bind_some]
  split
  · rw [hr]
    rfl
  · rfl

end

theorem lineWidth_isSome {fuel : Nat} {p : Para} (hp : p.Covered) (hfuel : p.text.length < fuel) (lineEdge edge : F) (lineStart : Nat)
    {lineEnd : Nat} (hle : lineEnd ≤ p.text.length) : (lineWidth fonts fuel p lineEdge edge lineStart lineEnd).isSome := by
  obtain ⟨s, hs, -⟩ := @Loops.whileDo_total _ (fun s => decide (s.1 < lineEnd)) (widthBody fonts p lineEdge edge lineEnd)
    (fun _ => True) (fun s => lineEnd - s.1) (fun s _ ht => by
      have hlt : s.1 < lineEnd := of_decide_eq_true ht
      have hnext := lt_utf8Next p.text (Nat.lt_of_lt_of_le hlt hle)
      obtain ⟨r, hr, -, -, hend⟩ := hp.runAt (Nat.lt_of_lt_of_le hlt hle)
      obtain ⟨w, hw⟩ := byteWidth_total fonts hp.runs s.1 (lineEdge + s.2) edge
      unfold widthBody
      dsimp only
      split
      · exact ⟨_, rfl, trivial, by dsimp only; omega⟩
      rw [hr, Option.bind_eq_bind, Option.bind_some, if_neg (by omega)]
      split
      · exact ⟨_, by rw [hw, Option.map_some], trivial, by dsimp only; omega⟩
      · exact ⟨_, rfl, trivial, by dsimp only; omega⟩) fuel (lineStart, 0) (by dsimp only; omega) trivial
  rw [lineWidth, hs, Option.map_some]
  rfl

/-! ## Filling a line -/

structure InLine (text : List Byte) (B : Nat → Prop) (lineStart : Nat) (s : Nat × F × Nat × Int) : Prop where
  good : s.2.2.1 = s.1
  place : Place text B lineStart s.1
  lastBreak : s.2.2.2 ≤ s.1 ∧ (0 ≤ s.2.2.2 → B s.2.2.2.toNat)

/-- Where a line may end: `lastGood` and `lastBreak`. -/
structure LineEnds (text : List Byte) (B : Nat → Prop) (lineStart : Nat) (r : Nat × Int) : Prop where
  later : lineStart < r.1
  good : Place text B lineStart r.1
  lastBreak : r.2 ≤ r.1 ∧ (0 ≤ r.2 → B r.2.toNat)

section
variable {fuel : Nat} {p : Para} {B : Nat → Prop} (hB : Steps p.text B) {column lineEdge edge : F} {lineStart : Nat}
  (hlt : lineStart < p.text.length)
include hB hlt

theorem fill_step {s : Nat × F × Nat × Int} (hs : InLine p.text B lineStart s) {x : (Nat × F × Nat × Int) ⊕ (Nat × Int)}
    (hx : fillStep fonts fuel p column lineEdge edge lineStart s = some x) :
    x.elim (fun t => InLine p.text B lineStart t ∧ p.text.length - t.1 < p.text.length - s.1) (LineEnds p.text B lineStart) := by
  obtain ⟨i, width, lastGood, lastBreak⟩ := s
  obtain ⟨hgood, hplace, hbreak⟩ := hs
  dsimp only at hgood hplace hbreak
  subst hgood
  unfold fillStep at hx
  dsimp only at hx
  have hfrom := hplace.from'
  by_cases hin : lastGood < p.text.length
  · rw [if_pos hin] at hx
    obtain ⟨⟨j, w⟩, hword, hx⟩ := Option.map_eq_some_iff.1 hx
    obtain ⟨hgt, hj⟩ := nextWord_of fonts hB hin hplace.here hword
    dsimp only at hgt hj hx
    split at hx
    · subst hx
      refine ⟨⟨rfl, ⟨by dsimp only; omega, hj.within, hj.here⟩, ?_⟩, ?_⟩
      · dsimp only
        split
        · exact ⟨le_refl _, fun _ => by rw [Int.toNat_natCast]; exact hj.here⟩
        · exact ⟨by omega, hbreak.2⟩
      · have := hj.within
        dsimp only
        omega
    · rename_i hno
      subst hx
      exact ⟨Nat.lt_of_le_of_ne hfrom fun h => hno (.inr h.symm), hplace, hbreak⟩
  · rw [if_neg hin] at hx
    cases hx
    exact ⟨by dsimp only; omega, hplace, hbreak⟩

theorem fill_of (hstart : B lineStart) {r : Nat × Int}
    (hr : Loops.loop (fillStep fonts fuel p column lineEdge edge lineStart) fuel (lineStart, 0, lineStart, -1) = some r) :
    LineEnds p.text B lineStart r := by
  obtain ⟨s, hs, hend⟩ := Loops.loop_inv
    (fun s t (hs : InLine p.text B lineStart s) ht => (fill_step fonts hB hlt hs ht).1)
    ⟨rfl, ⟨Nat.le_refl _, Nat.le_of_lt hlt, hstart⟩, by dsimp only; omega, fun h => absurd h (by dsimp only; omega)⟩ hr
  exact fill_step fonts hB hlt hs hend

end

theorem fill_isSome {fuel : Nat} {p : Para} (hruns : p.runs ≠ []) (hfuel : p.text.length < fuel) (column lineEdge edge : F)
    {lineStart : Nat} (hlt : lineStart < p.text.length) :
    (Loops.loop (fillStep fonts fuel p column lineEdge edge lineStart) fuel (lineStart, 0, lineStart, -1)).isSome := by
  have hB : Steps p.text (fun _ => True) := fun _ _ _ => trivial
  refine Loops.loop_isSome (fun s t hs ht => fill_step fonts hB hlt hs ht) (fun s _ => ?_)
    (show p.text.length - lineStart < fuel by omega)
    ⟨rfl, ⟨Nat.le_refl _, Nat.le_of_lt hlt, trivial⟩, by dsimp only; omega, fun _ => trivial⟩
  unfold fillStep
  dsimp only
  split
  · rw [Option.isSome_map]
    exact nextWord_isSome fonts hruns hfuel _ _ _
  · rfl

/-! ## Lines -/

/-- A line and what follows it: from its start on there are its bytes and then blanks up to the next line. -/
structure UpTo (text : List Byte) (l : Line F) (next : Nat) : Prop where
  later : l.startPara < next
  within : l.startPara + l.length ≤ next
  blanks : ∀ i, l.startPara + l.length ≤ i → i < next → breakAt text i = true

/-- A line of paragraph `para` at `lineStart` that the next one follows at `next`. -/
structure LineOf (text : List Byte) (B : Nat → Prop) (para lineStart : Nat) (l : Line F) (next : Nat) : Prop where
  para : l.para = para
  table : l.table = false
  start : l.startPara = lineStart
  upTo : UpTo text l next
  bound : next ≤ text.length
  place : B next
  last : l.last = true ↔ text.length ≤ l.startPara + l.length
  trimmed : l.length ≠ 0 → breakAt text (l.startPara + l.length - 1) = false

/-- **The next line.** -/
theorem oneLine_of {fuel : Nat} {setup : PWPageSetup F} {ps : List Para} {para : Nat} {p : Para} (hpara : paraAt ps para = p)
    {B : Nat → Prop} (hB : Steps p.text B) {lineStart : Nat} (hlt : lineStart < p.text.length) (hstart : B lineStart)
    {r : Line F × Nat} (hr : oneLine fonts fuel setup ps para lineStart = some r) : LineOf p.text B para lineStart r.1 r.2 := by
  unfold oneLine at hr
  rw [hpara] at hr
  obtain ⟨⟨lastGood, lastBreak⟩, hfill, hr⟩ := Option.bind_eq_some_iff.1 hr
  obtain ⟨hgt, hgood, hbreak, hB'⟩ := fill_of fonts hB hlt hstart hfill
  have hle := hgood.within
  obtain ⟨htrim1, htrim2, hblanks, htrimmed⟩ := trimEnd_spec p.text lineStart lastGood (Nat.le_of_lt hgt)
  dsimp only at hgt hle hgood hbreak hB' hr
  rw [if_neg (Nat.ne_of_gt hgt)] at hr
  generalize trimEnd p.text lineStart lastGood = lineEnd at htrim1 htrim2 hblanks htrimmed hr
  obtain ⟨heights, -, hr⟩ := Option.bind_eq_some_iff.1 hr
  obtain ⟨lineW, -, hr⟩ := Option.bind_eq_some_iff.1 hr
  -- both places to go on from lie between the counted end and what was read
  have hnext : ∃ next : Nat, (if lineEnd < lastBreak then lastBreak else (lastGood : Int)) = next ∧ lineEnd ≤ next ∧
      lineStart < next ∧ next ≤ lastGood ∧ B next := by
    split
    · exact ⟨lastBreak.toNat, by omega, by omega, by omega, by omega, hB' (by omega)⟩
    · exact ⟨lastGood, rfl, htrim2, hgt, Nat.le_refl _, hgood.here⟩
  obtain ⟨next, hnext, hend, hlater, hread, hplace⟩ := hnext
  rw [hnext, if_neg (show ¬ (next : Int) ≤ lineStart by omega), Int.toNat_natCast] at hr
  have hlength : lineStart + (lineEnd - lineStart) = lineEnd := by omega
  rw [← Option.some.inj hr]
  refine ⟨rfl, rfl, rfl, ⟨hlater, ?_, fun i hi hin => ?_⟩, Nat.le_trans hread hle, hplace, ?_, fun hne => ?_⟩
  · dsimp only
    omega
  · dsimp only at hi hin
    exact hblanks i (by omega) (by omega)
  · dsimp only
    rw [decide_eq_true_eq, hlength]
  · dsimp only at hne ⊢
    rw [hlength]
    exact htrimmed (by omega)

theorem oneLine_isSome {fuel : Nat} {ps : List Para} {para : Nat} {p : Para} (hpara : paraAt ps para = p) (hp : p.Covered)
    (hfuel : p.text.length < fuel) {lineStart : Nat} (hlt : lineStart < p.text.length) (setup : PWPageSetup F) :
    (oneLine fonts fuel setup ps para lineStart).isSome := by
  unfold oneLine
  rw [hpara]
  dsimp only
  obtain ⟨⟨lastGood, lastBreak⟩, hfill⟩ := Option.isSome_iff_exists.1 (fill_isSome fonts hp.runs hfuel (textBox setup p.format).column
    ((textBox setup p.format).edge + (textBox setup p.format).listIndent +
      (if decide (lineStart = 0) = true then pt p.format.indentFirst else pt 0)) (textBox setup p.format).edge hlt)
  obtain ⟨hgt, hgood, -⟩ := fill_of fonts (B := fun _ => True) (fun _ _ _ => trivial) hlt trivial hfill
  have htrim := (trimEnd_spec p.text lineStart lastGood (Nat.le_of_lt hgt)).2.1
  have hle := Nat.le_trans htrim hgood.within
  dsimp only at hgt
  rw [hfill, Option.bind_eq_bind, Option.bind_some, if_neg (Nat.ne_of_gt hgt)]
  obtain ⟨heights, hheights⟩ := Option.isSome_iff_exists.1 (lineHeights_isSome fonts hp.runs hfuel lineStart hle)
  obtain ⟨lineW, hlineW⟩ := Option.isSome_iff_exists.1 (lineWidth_isSome fonts hp hfuel
    ((textBox setup p.format).edge + (textBox setup p.format).listIndent +
      (if decide (lineStart = 0) = true then pt p.format.indentFirst else pt 0)) (textBox setup p.format).edge lineStart hle)
  rw [hheights, Option.bind_eq_bind, Option.bind_some, hlineW, Option.bind_eq_bind, Option.bind_some]
  rfl

def Laid (text : List Byte) (B : Nat → Prop) (para : Nat) : Nat → List (Line F) → Nat → Prop
  | at', [], stop      => at' = stop
  | at', l :: ls, stop => ∃ next, LineOf text B para at' l next ∧ Laid text B para next ls stop

section
omit [Points F] [DecidableLE F] [DecidableLT F]
variable {text : List Byte} {B : Nat → Prop} {para : Nat}

theorem Laid.snoc : ∀ {ls : List (Line F)} {at' mid stop : Nat} {l : Line F}, Laid text B para at' ls mid →
    LineOf text B para mid l stop → Laid text B para at' (ls ++ [l]) stop
  | [], at', mid, stop, l, h, hl => by
    have h : at' = mid := h
    exact ⟨stop, h ▸ hl, rfl⟩
  | m :: ls, at', mid, stop, l, ⟨next, hm, h⟩, hl => ⟨next, hm, h.snoc hl⟩

theorem Laid.head {ls : List (Line F)} {l : Line F} {at' stop : Nat} (h : Laid text B para at' (l :: ls) stop) : l.startPara = at' := by
  obtain ⟨next, hl, -⟩ := h
  exact hl.start

theorem Laid.mem : ∀ {ls : List (Line F)} {at' stop : Nat}, Laid text B para at' ls stop → ∀ l ∈ ls, ∃ next,
    LineOf text B para l.startPara l next
  | m :: ls, at', stop, ⟨next, hm, h⟩, l, hl => by
    rcases mem_cons.1 hl with rfl | hl
    · exact ⟨next, hm.start ▸ hm⟩
    · exact h.mem l hl

theorem Laid.chain : ∀ {ls : List (Line F)} {at' stop : Nat}, Laid text B para at' ls stop →
    ls.IsChain (fun a b => UpTo text a b.startPara)
  | [], _, _, _ => List.IsChain.nil
  | [_], _, _, _ => List.IsChain.singleton _
  | a :: b :: ls, at', stop, ⟨next, ha, h⟩ => by
    refine List.IsChain.cons_cons ?_ h.chain
    rw [h.head]
    exact ha.upTo

theorem Laid.not_last : ∀ {pre post : List (Line F)} {l : Line F} {at' stop : Nat},
    Laid text B para at' (pre ++ l :: post) stop → post ≠ [] → l.last = false
  | [], m :: post, l, at', stop, ⟨next, hl, next', hm, _⟩, _ => by
    rw [Bool.eq_false_iff]
    intro hlast
    have h1 := hl.last.1 hlast
    have h2 := hl.upTo.within
    have h3 := hm.upTo.later
    have h4 := hm.bound
    have h5 := hm.start
    omega
  | _ :: pre, post, l, at', stop, ⟨_, _, h⟩, hpost => h.not_last hpost

/-- The line that leads to the paragraph's end is flagged unless the paragraph ends with a blank. -/
theorem Laid.last : ∀ {pre : List (Line F)} {l : Line F} {at' : Nat}, Laid text B para at' (pre ++ [l]) text.length →
    (l.last = true ↔ breakAt text (text.length - 1) = false)
  | [], l, at', ⟨next, hl, h⟩ => by
    have h : next = text.length := h
    subst h
    have hlater := hl.upTo.later
    have hwithin := hl.upTo.within
    rw [hl.last]
    constructor
    · intro hend
      have heq : l.startPara + l.length = text.length := Nat.le_antisymm hwithin hend
      rw [← heq]
      exact hl.trimmed (by omega)
    · intro hbreak
      by_contra hnot
      rw [hl.upTo.blanks (text.length - 1) (by omega) (by omega)] at hbreak
      exact absurd hbreak (by decide)
  | _ :: pre, l, at', ⟨_, _, h⟩ => h.last

end

structure InPara (text : List Byte) (B : Nat → Prop) (para : Nat) (before : List (Line F)) (s : List (Line F) × Nat) : Prop where
  laid : ∃ new, s.1 = before ++ new ∧ Laid text B para 0 new s.2
  bound : s.2 ≤ text.length
  place : B s.2

omit [Points F] [DecidableLE F] [DecidableLT F] in
theorem InPara.start {text : List Byte} {B : Nat → Prop} (hzero : B 0) {para : Nat} {before : List (Line F)} :
    InPara text B para before (before, 0) := ⟨⟨[], (append_nil _).symm, rfl⟩, Nat.zero_le _, hzero⟩

theorem line_step {fuel : Nat} {ps : List Para} {para : Nat} {p : Para} (hpara : paraAt ps para = p) (hne : 0 < p.text.length)
    {B : Nat → Prop} (hB : Steps p.text B) {setup : PWPageSetup F} {before : List (Line F)} {s : List (Line F) × Nat}
    (hs : InPara p.text B para before s) {x : (List (Line F) × Nat) ⊕ List (Line F)}
    (hx : lineStep fonts fuel setup ps para s = some x) :
    x.elim (fun t => InPara p.text B para before t ∧ p.text.length - t.2 < p.text.length - s.2)
      (fun r => ∃ new, r = before ++ new ∧ Laid p.text B para 0 new p.text.length) := by
  obtain ⟨lines, lineStart⟩ := s
  obtain ⟨⟨new, hlines, hlaid⟩, hbound, hplace⟩ := hs
  dsimp only at hlines hlaid hbound hplace
  subst hlines
  unfold lineStep at hx
  dsimp only at hx
  rw [hpara] at hx
  by_cases hlt : lineStart < p.text.length
  · rw [if_pos (.inl hlt)] at hx
    obtain ⟨⟨line, next⟩, hone, hx⟩ := Option.map_eq_some_iff.1 hx
    have hline := oneLine_of fonts hpara hB hlt hplace hone
    dsimp only at hline hx
    have hmore := hlaid.snoc hline
    have hlater := hline.upTo.later
    rw [hline.start] at hlater
    rw [append_assoc] at hx
    split at hx
    · rename_i hlast
      have hend : next = p.text.length :=
        Nat.le_antisymm hline.bound (Nat.le_trans (hline.last.1 hlast) hline.upTo.within)
      subst hx
      exact ⟨_, rfl, hend ▸ hmore⟩
    · subst hx
      exact ⟨⟨⟨_, rfl, hmore⟩, hline.bound, hline.place⟩, by dsimp only; omega⟩
  · have hend : lineStart = p.text.length := by omega
    rw [if_neg (by omega)] at hx
    cases hx
    exact ⟨_, rfl, hend ▸ hlaid⟩

/-! ## A paragraph with no text -/

structure EmptyLine (para : Nat) (l : Line F) : Prop where
  para : l.para = para
  table : l.table = false
  start : l.startPara = 0
  length : l.length = 0
  last : l.last = true

theorem fill_empty {p : Para} (hempty : p.text = []) (fuel : Nat) (column lineEdge edge : F) :
    Loops.loop (fillStep fonts (fuel + 1) p column lineEdge edge 0) (fuel + 1) (0, 0, 0, -1) = some (0, -1) := by
  have hstep : fillStep fonts (fuel + 1) p column lineEdge edge 0 (0, 0, 0, -1) = some (.inr (0, -1)) :=
    if_neg (by rw [hempty]; exact Nat.lt_irrefl 0)
  rw [Loops.loop, hstep]

theorem oneLine_empty {fuel : Nat} {setup : PWPageSetup F} {ps : List Para} {para : Nat} {p : Para} (hpara : paraAt ps para = p)
    (hempty : p.text = []) {r : Line F × Nat} (hr : oneLine fonts (fuel + 1) setup ps para 0 = some r) : EmptyLine para r.1 := by
  have hlength : p.text.length = 0 := by rw [hempty, length_nil]
  unfold oneLine at hr
  rw [hpara] at hr
  dsimp only at hr
  rw [fill_empty fonts hempty, Option.bind_eq_bind, Option.bind_some, if_pos rfl, hlength] at hr
  obtain ⟨heights, -, hr⟩ := Option.bind_eq_some_iff.1 hr
  obtain ⟨lineW, -, hr⟩ := Option.bind_eq_some_iff.1 hr
  rw [← Option.some.inj hr]
  exact ⟨rfl, rfl, rfl, rfl, rfl⟩

theorem oneLine_empty_isSome {fuel : Nat} (setup : PWPageSetup F) {ps : List Para} {para : Nat} {p : Para} (hpara : paraAt ps para = p)
    (hruns : p.runs ≠ []) (hempty : p.text = []) : (oneLine fonts (fuel + 1) setup ps para 0).isSome := by
  have hlength : p.text.length = 0 := by rw [hempty, length_nil]
  have hwidth (lineEdge edge : F) : lineWidth fonts (fuel + 1) p lineEdge edge 0 0 = some 0 := by
    unfold lineWidth Loops.whileDo
    rw [Loops.loop, Loops.turn, if_neg (by simp)]
    rfl
  obtain ⟨heights, hheights⟩ := Option.isSome_iff_exists.1
    (@lineHeights_isSome F _ _ fonts (fuel + 1) p hruns (by omega) 0 0 (Nat.zero_le _))
  unfold oneLine
  rw [hpara]
  dsimp only
  rw [fill_empty fonts hempty, Option.bind_eq_bind, Option.bind_some, if_pos rfl, hlength]
  change ((lineHeights fonts (fuel + 1) p 0 0).bind _).isSome
  rw [hheights, Option.bind_some, Option.bind_eq_bind]
  change ((lineWidth fonts (fuel + 1) p _ _ 0 0).bind _).isSome
  rw [hwidth]
  rfl

theorem lineStep_empty {fuel : Nat} {setup : PWPageSetup F} {ps : List Para} {para : Nat} {p : Para} (hpara : paraAt ps para = p)
    (hempty : p.text = []) {before : List (Line F)} {x : (List (Line F) × Nat) ⊕ List (Line F)}
    (hx : lineStep fonts (fuel + 1) setup ps para (before, 0) = some x) : ∃ l, x = .inr (before ++ [l]) ∧ EmptyLine para l := by
  have hlength : p.text.length = 0 := by rw [hempty, length_nil]
  rw [lineStep, hpara, if_pos (.inr ⟨rfl, hlength⟩)] at hx
  obtain ⟨r, hone, hx⟩ := Option.map_eq_some_iff.1 hx
  have hl := oneLine_empty fonts hpara hempty hone
  dsimp only at hx
  rw [if_pos hl.last] at hx
  exact ⟨r.1, hx.symm, hl⟩

/-! ## The paragraph -/

def NewLines (text : List Byte) (B : Nat → Prop) (para : Nat) (new : List (Line F)) : Prop :=
  if text = [] then ∃ l, new = [l] ∧ EmptyLine para l else Laid text B para 0 new text.length

omit [Points F] [DecidableLE F] [DecidableLT F] in
theorem NewLines.last_para {text : List Byte} {B : Nat → Prop} {para : Nat} {new : List (Line F)} (h : NewLines text B para new) :
    ∃ pre l, new = pre ++ [l] ∧ l.para = para := by
  unfold NewLines at h
  split at h
  · obtain ⟨l, rfl, hl⟩ := h
    exact ⟨[], l, rfl, hl.para⟩
  rename_i hne
  have hpos := length_pos_iff.2 hne
  rcases eq_nil_or_concat' new with rfl | ⟨pre, l, rfl⟩
  · have h : 0 = text.length := h
    omega
  · obtain ⟨next, hl⟩ := h.mem l (mem_append_right _ (mem_singleton_self l))
    exact ⟨pre, l, rfl, hl.para⟩

theorem lines_of {fuel : Nat} {setup : PWPageSetup F} {ps : List Para} {para : Nat} {p : Para} (hpara : paraAt ps para = p)
    {B : Nat → Prop} (hB : Steps p.text B) (hzero : B 0) {before r : List (Line F)}
    (hr : Loops.loop (lineStep fonts fuel setup ps para) fuel (before, 0) = some r) :
    ∃ new, r = before ++ new ∧ NewLines p.text B para new := by
  unfold NewLines
  split
  · rename_i hempty
    cases fuel with
    | zero => cases hr
    | succ fuel =>
      obtain ⟨s, rfl, hend⟩ := Loops.loop_inv (fun s t (hs : s = (before, 0)) ht => by
        subst hs
        obtain ⟨l, hl, -⟩ := lineStep_empty fonts hpara hempty ht
        cases hl) rfl hr
      obtain ⟨l, hl, hline⟩ := lineStep_empty fonts hpara hempty hend
      exact ⟨[l], Sum.inr.inj hl, l, rfl, hline⟩
  · rename_i hne
    have hpos := length_pos_iff.2 hne
    obtain ⟨s, hs, hend⟩ := Loops.loop_inv
      (fun s t (hs : InPara p.text B para before s) ht => (line_step fonts hpara hpos hB hs ht).1)
      (InPara.start hzero) hr
    exact line_step fonts hpara hpos hB hs hend

/-- **What `LayoutParagraph` does to a paragraph that is no table row**: it appends the paragraph's lines. -/
theorem layoutParagraph_of {fuel : Nat} {ps : List Para} {para : Nat} {p : Para} (hpara : paraAt ps para = p) (hrow : p.isRow = false)
    {B : Nat → Prop} (hB : Steps p.text B) (hzero : B 0) {L L' : PWLayout F} (h : layoutParagraph fonts fuel L ps para = some L') :
    ∃ new, L' = { L with fLines := L.fLines ++ new } ∧ NewLines p.text B para new := by
  unfold layoutParagraph at h
  rw [hpara, hrow, if_neg Bool.false_ne_true] at h
  obtain ⟨lines, hloop, rfl⟩ := Option.map_eq_some_iff.1 h
  obtain ⟨new, rfl, hnew⟩ := lines_of fonts hpara hB hzero hloop
  obtain ⟨pre, l, rfl, hl⟩ := hnew.last_para
  refine ⟨_, ?_, hnew⟩
  dsimp only
  rw [if_neg]
  rw [← append_assoc, getLast?_concat, Option.all_some, hl]
  simp

theorem layoutParagraph_isSome {fuel : Nat} {ps : List Para} {para : Nat} {p : Para} (hpara : paraAt ps para = p) (hp : p.Covered)
    (hfuel : p.text.length < fuel) (hrow : p.isRow = false) (L : PWLayout F) : (layoutParagraph fonts fuel L ps para).isSome := by
  unfold layoutParagraph
  rw [hpara, hrow, if_neg Bool.false_ne_true, Option.isSome_map]
  by_cases hempty : p.text = []
  · have hlength : p.text.length = 0 := by rw [hempty, length_nil]
    obtain ⟨n, rfl⟩ := Nat.exists_eq_add_of_lt hfuel
    obtain ⟨x, hx⟩ : ∃ x, lineStep fonts (p.text.length + n + 1) L.fSetup ps para (L.fLines, 0) = some x := by
      unfold lineStep
      dsimp only
      rw [hpara, if_pos (.inr ⟨rfl, hlength⟩)]
      obtain ⟨r, hr⟩ := Option.isSome_iff_exists.1 (oneLine_empty_isSome fonts L.fSetup hpara hp.runs hempty)
      exact ⟨_, by rw [hr, Option.map_some]⟩
    obtain ⟨l, rfl, -⟩ := lineStep_empty fonts hpara hempty hx
    rw [Loops.loop, hx]
    rfl
  · have hpos := length_pos_iff.2 hempty
    refine Loops.loop_isSome (fun s t (hs : InPara p.text (fun _ => True) para L.fLines s) ht =>
      line_step fonts hpara hpos (fun _ _ _ => trivial) hs ht) (fun s hs => ?_)
      (show p.text.length - 0 < fuel by omega) (InPara.start trivial)
    unfold lineStep
    dsimp only
    rw [hpara]
    split
    · rename_i hmore
      rw [Option.isSome_map]
      exact oneLine_isSome fonts hpara hp hfuel (by omega) L.fSetup
    · rfl

/-! ## The claim -/

/-- The lines of a paragraph: they start at its first byte, go on one behind the other, and leave out blanks between them. -/
structure LinesOk (text : List Byte) (new : List (Line F)) : Prop where
  ne : new ≠ []
  start : ∀ l, new.head? = some l → l.startPara = 0
  increase : new.Pairwise (fun a b => a.startPara < b.startPara)
  within : ∀ l ∈ new, l.startPara + l.length ≤ text.length
  next : new.IsChain (fun a b => a.startPara + a.length ≤ b.startPara ∧
    ∀ i, a.startPara + a.length ≤ i → i < b.startPara → breakAt text i = true)

def LastFlagged (new : List (Line F)) : Prop := ∀ pre l post, new = pre ++ l :: post → (l.last = true ↔ post = [])

/-- There is a run, and what is no table row has its bytes in its runs. -/
structure Para.LaysOut (p : Para) : Prop where
  runs : p.runs ≠ []
  covers : p.isRow = false → ∀ i < p.text.length, ∃ r ∈ p.runs, r.covers i = true

def Para.EndsWell (p : Para) : Prop := p.isRow = false → p.text ≠ [] → breakAt p.text (p.text.length - 1) = false

section
omit [Points F] [DecidableLE F] [DecidableLT F]

theorem linesOk_singleton {text : List Byte} {l : Line F} (hstart : l.startPara = 0) (hlength : l.length ≤ text.length) :
    LinesOk text [l] where
  ne := cons_ne_nil _ _
  start m hm := by rwa [← Option.some.inj hm]
  increase := pairwise_singleton _ _
  within m hm := by
    rw [mem_singleton.1 hm, hstart]
    omega
  next := List.IsChain.singleton _

theorem lastFlagged_singleton {l : Line F} (hl : l.last = true) : LastFlagged [l] := by
  intro pre m post h
  rcases append_eq_singleton_iff.1 h.symm with ⟨rfl, h⟩ | ⟨-, h⟩
  · obtain ⟨rfl, rfl⟩ := List.cons.inj h
    exact ⟨fun _ => rfl, fun _ => hl⟩
  · exact absurd h (cons_ne_nil _ _)

theorem Laid.linesOk {text : List Byte} {B : Nat → Prop} {para : Nat} {new : List (Line F)} (hne : text ≠ [])
    (h : Laid text B para 0 new text.length) : LinesOk text new where
  ne hnil := by
    subst hnil
    have h : 0 = text.length := h
    exact hne (length_eq_zero_iff.1 h.symm)
  start l hl := by
    cases new with
    | nil => cases hl
    | cons m ls =>
      rw [← Option.some.inj hl]
      exact h.head
  increase := by
    refine isChain_iff_pairwise.1 (h.chain.imp fun a b hab => ?_)
    exact hab.later
  within l hl := by
    obtain ⟨next, hline⟩ := h.mem l hl
    exact Nat.le_trans hline.upTo.within hline.bound
  next := h.chain.imp fun a b hab => ⟨hab.within, hab.blanks⟩

theorem Laid.lastFlagged {text : List Byte} {B : Nat → Prop} {para : Nat} {new : List (Line F)} (hne : text ≠ [])
    (h : Laid text B para 0 new text.length) : LastFlagged new ↔ breakAt text (text.length - 1) = false := by
  obtain ⟨pre, l, rfl⟩ := (eq_nil_or_concat' new).resolve_left (h.linesOk hne).ne
  refine ⟨fun hlast => h.last.1 ((hlast pre l [] rfl).2 rfl), fun hbreak pre' m post hm => ?_⟩
  cases post with
  | nil =>
    obtain ⟨-, hlm⟩ := append_inj' hm rfl
    rw [← (List.cons.inj hlm).1]
    exact ⟨fun _ => rfl, fun _ => h.last.2 hbreak⟩
  | cons k post =>
    rw [hm] at h
    exact ⟨fun hflag => absurd hflag (Bool.eq_false_iff.1 (h.not_last (cons_ne_nil _ _))),
      fun hnil => absurd hnil (cons_ne_nil _ _)⟩

end

/-! ## A byte in no run -/

/-- A byte the measuring loop comes to and does not get over: it is no blank, no run covers it, the first run ends in front of it, and
no image's marker reaches over it. -/
structure Stuck (F : Type) [Points F] [DecidableLT F] (p : Para) (b : Nat) : Prop where
  inText : b < p.text.length
  letter : breakAt p.text b = false
  uncovered : ∀ r ∈ p.runs, r.covers b = false
  first : ∀ r, p.runs.head? = some r → r.rEnd ≤ b
  images : ∀ i ≤ b, p.imageAt F i = true → utf8Next p.text i p.text.length ≤ b

theorem runAt_covers (i : Nat) (runs : List PWRun) {r : PWRun} (h : runAt runs i = some r) :
    r ∈ runs ∧ (r.covers i = true ∨ runs.head? = some r) := by
  refine ⟨mem_of_getElem? h, ?_⟩
  induction runs using List.reverseRecOn with
  | nil => cases h
  | append_singleton rs q ih =>
    by_cases hrs : rs = []
    · subst hrs
      have hq : runAt ([] ++ [q]) i = some q := by
        unfold runAt runOf
        simp
      rw [hq] at h
      exact .inr h
    · rw [runAt_concat rs q i (runAt_spec i rs hrs).1] at h
      split at h
      · rename_i hcov
        rw [← Option.some.inj h]
        exact .inl hcov
      · refine (ih h).imp id fun hhead => ?_
        rw [List.head?_append, hhead]
        rfl

theorem stuck_step {p : Para} {b : Nat} (hb : Stuck F p b) {lineEnd : Nat} (lineEdge edge : F) {s t : Nat × F}
    (hs : s.1 ≤ b) (ht : widthBody fonts p lineEdge edge lineEnd s = some t) : t.1 ≤ b := by
  unfold widthBody at ht
  dsimp only at ht
  split at ht
  · rename_i himage
    rw [← Option.some.inj ht]
    exact hb.images s.1 hs himage
  obtain ⟨r, hr, ht⟩ := Option.bind_eq_some_iff.1 ht
  -- a run that began in front of `b` and ended behind it would cover it
  have hend : r.rEnd ≤ b := by
    obtain ⟨hmem, hcov | hhead⟩ := runAt_covers s.1 p.runs hr
    · have hcov : r.start ≤ s.1 ∧ (s.1 : Int) < r.rEnd := of_decide_eq_true hcov
      have hun : ¬ (r.start ≤ b ∧ (b : Int) < r.rEnd) := of_decide_eq_false (hb.uncovered r hmem)
      omega
    · exact hb.first r hhead
  have hseg : (min r.rEnd (lineEnd : Int)).toNat ≤ b := by omega
  split at ht
  · cases ht
  split at ht
  · obtain ⟨w, -, rfl⟩ := Option.map_eq_some_iff.1 ht
    exact hseg
  · rw [← Option.some.inj ht]
    exact hseg

theorem lineWidth_stuck {p : Para} {b : Nat} (hb : Stuck F p b) (fuel : Nat) (lineEdge edge : F) {lineStart lineEnd : Nat}
    (hstart : lineStart ≤ b) (hend : b < lineEnd) : lineWidth fonts fuel p lineEdge edge lineStart lineEnd = none := by
  have hloop := @Loops.whileDo_endless _ (fun s => decide (s.1 < lineEnd)) (widthBody fonts p lineEdge edge lineEnd)
    (fun s => s.1 ≤ b) (fun s hs => by
      refine ⟨decide_eq_true (Nat.lt_of_le_of_lt hs hend), ?_⟩
      cases ht : widthBody fonts p lineEdge edge lineEnd s with
      | none => exact .inl rfl
      | some t => exact .inr ⟨t, rfl, stuck_step fonts hb lineEdge edge hs ht⟩) fuel (lineStart, 0) hstart
  rw [lineWidth, hloop, Option.map_none]

theorem oneLine_stuck {fuel : Nat} {ps : List Para} {para : Nat} {p : Para} (hpara : paraAt ps para = p) {b : Nat} (hb : Stuck F p b)
    {lineStart : Nat} (hstart : lineStart ≤ b) {setup : PWPageSetup F} {r : Line F × Nat}
    (hr : oneLine fonts fuel setup ps para lineStart = some r) : r.2 ≤ b ∧ r.1.last = false := by
  have hlt := Nat.lt_of_le_of_lt hstart hb.inText
  have hline := oneLine_of fonts hpara (B := fun _ => True) (fun _ _ _ => trivial) hlt trivial hr
  -- its width was measured, so it ends in front of the byte, and the byte is no blank
  have hend : r.1.startPara + r.1.length ≤ b := by
    by_contra hnot
    unfold oneLine at hr
    rw [hpara] at hr
    obtain ⟨filled, hfill, hr⟩ := Option.bind_eq_some_iff.1 hr
    obtain ⟨heights, -, hr⟩ := Option.bind_eq_some_iff.1 hr
    obtain ⟨lineW, hlineW, hr⟩ := Option.bind_eq_some_iff.1 hr
    rw [← Option.some.inj hr] at hnot
    dsimp only at hnot hlineW
    rw [lineWidth_stuck fonts hb fuel _ _ hstart (by omega)] at hlineW
    cases hlineW
  have hlen := hb.inText
  refine ⟨?_, Bool.eq_false_iff.2 fun hlast => ?_⟩
  · by_contra hnot
    have hblank := hline.upTo.blanks b hend (Nat.not_le.1 hnot)
    rw [hb.letter] at hblank
    exact absurd hblank (by decide)
  · have := hline.last.1 hlast
    omega

/-- **A paragraph with such a byte is never done.** -/
theorem layoutParagraph_stuck {ps : List Para} {para : Nat} {p : Para} (hpara : paraAt ps para = p) (hrow : p.isRow = false) {b : Nat}
    (hb : Stuck F p b) (L : PWLayout F) (fuel : Nat) : layoutParagraph fonts fuel L ps para = none := by
  have hloop := @Loops.loop_endless _ _ (lineStep fonts fuel L.fSetup ps para) (fun s => s.2 ≤ b) (fun s hs => by
    obtain ⟨lines, lineStart⟩ := s
    dsimp only at hs
    unfold lineStep
    dsimp only
    rw [hpara, if_pos (.inl (Nat.lt_of_le_of_lt hs hb.inText))]
    cases hone : oneLine fonts fuel L.fSetup ps para lineStart with
    | none => exact .inl rfl
    | some r =>
      obtain ⟨hnext, hlast⟩ := oneLine_stuck fonts hpara hb hs hone
      refine .inr ⟨(lines ++ [r.1], r.2), ?_, hnext⟩
      rw [Option.map_some, hlast, if_neg Bool.false_ne_true]) fuel (L.fLines, 0) (Nat.zero_le _)
  unfold layoutParagraph
  rw [hpara, hrow, if_neg Bool.false_ne_true, hloop, Option.map_none]

/-! ## Every paragraph -/

/-- **The lines of any paragraph that is laid out.** -/
theorem layoutParagraph_lines {fuel : Nat} {ps : List Para} {para : Nat} {p : Para} (hpara : paraAt ps para = p) {L L' : PWLayout F}
    (h : layoutParagraph fonts fuel L ps para = some L') : ∃ new rows, L' = { L with fLines := L.fLines ++ new, fRows := rows } ∧
      LinesOk p.text new ∧ (∀ l ∈ new, l.para = para) ∧ (LastFlagged new ↔ p.EndsWell) := by
  by_cases hrow : p.isRow = true
  · rw [layoutParagraph, hpara, if_pos hrow] at h
    obtain ⟨row, l, rfl, hl⟩ := layoutTableRow_of fonts hpara h
    refine ⟨[l], _, rfl, linesOk_singleton hl.start (Nat.le_of_eq hl.length), fun m hm => ?_, ?_⟩
    · rw [mem_singleton.1 hm]
      exact hl.para
    · exact iff_of_true (lastFlagged_singleton hl.last) fun hno => absurd (hrow.symm.trans hno) (by decide)
  · have hrow := Bool.eq_false_iff.2 hrow
    obtain ⟨new, rfl, hnew⟩ := layoutParagraph_of fonts hpara hrow (B := fun _ => True) (fun _ _ _ => trivial) trivial h
    refine ⟨new, L.fRows, rfl, ?_⟩
    unfold NewLines at hnew
    split at hnew
    · rename_i hempty
      obtain ⟨l, rfl, hl⟩ := hnew
      refine ⟨linesOk_singleton hl.start (by rw [hl.length]; exact Nat.zero_le _), fun m hm => ?_, ?_⟩
      · rw [mem_singleton.1 hm]
        exact hl.para
      · exact iff_of_true (lastFlagged_singleton hl.last) fun _ hne => absurd hempty hne
    · rename_i hne
      refine ⟨hnew.linesOk hne, fun m hm => ?_, (hnew.lastFlagged hne).trans ⟨fun hb _ _ => hb, fun hb => hb hrow hne⟩⟩
      obtain ⟨next, hline⟩ := hnew.mem m hm
      exact hline.para

/-- A line fits its paragraph: its bytes are in the text, and it ends where characters end or in front of a blank. -/
structure Fits (p : Para) (l : Line F) : Prop where
  within : l.startPara + l.length ≤ p.text.length
  table : l.table = p.isRow
  ends : p.isRow = false → ∀ B, Steps p.text B → B 0 → B (l.startPara + l.length) ∨ breakAt p.text (l.startPara + l.length) = true

theorem layoutParagraph_fits {fuel : Nat} {ps : List Para} {para : Nat} {p : Para} (hpara : paraAt ps para = p) {L L' : PWLayout F}
    (h : layoutParagraph fonts fuel L ps para = some L') {new : List (Line F)} (hnew : L'.fLines = L.fLines ++ new) :
    ∀ l ∈ new, Fits p l := by
  by_cases hrow : p.isRow = true
  · rw [layoutParagraph, hpara, if_pos hrow] at h
    obtain ⟨row, m, rfl, hm⟩ := layoutTableRow_of fonts hpara h
    intro l hl
    rw [← append_cancel_left hnew, mem_singleton] at hl
    subst hl
    refine ⟨by rw [hm.start, hm.length, Nat.zero_add], hm.table.trans hrow.symm, fun hno => ?_⟩
    exact absurd (hrow.symm.trans hno) (by decide)
  · have hrow := Bool.eq_false_iff.2 hrow
    have hlines : ∀ B, Steps p.text B → B 0 → NewLines p.text B para new := fun B hB hzero => by
      obtain ⟨new', rfl, hlaid⟩ := layoutParagraph_of fonts hpara hrow hB hzero h
      rwa [← append_cancel_left hnew]
    intro l hl
    have hline : ∀ B, Steps p.text B → B 0 → l.startPara + l.length ≤ p.text.length ∧ l.table = false ∧
        (B (l.startPara + l.length) ∨ breakAt p.text (l.startPara + l.length) = true) := fun B hB hzero => by
      have hlines := hlines B hB hzero
      unfold NewLines at hlines
      split at hlines
      · obtain ⟨m, rfl, hm⟩ := hlines
        rw [mem_singleton.1 hl, hm.start, hm.length]
        exact ⟨Nat.zero_le _, hm.table, .inl hzero⟩
      obtain ⟨next, hm⟩ := hlines.mem l hl
      refine ⟨Nat.le_trans hm.upTo.within hm.bound, hm.table, ?_⟩
      rcases Nat.eq_or_lt_of_le hm.upTo.within with heq | hlt
      · rw [heq]
        exact .inl hm.place
      · exact .inr (hm.upTo.blanks _ (Nat.le_refl _) hlt)
    obtain ⟨hwithin, htable, -⟩ := hline (fun _ => True) (fun _ _ _ => trivial) trivial
    exact ⟨hwithin, htable.trans hrow.symm, fun _ B hB hzero => (hline B hB hzero).2.2⟩

theorem laysOut_isSome {fuel : Nat} {ps : List Para} (hfuel : Enough fuel ps) {para : Nat} {p : Para} (hp : ps[para]? = some p)
    (h : p.LaysOut) (L : PWLayout F) : (layoutParagraph fonts fuel L ps para).isSome := by
  have hpara : paraAt ps para = p := paraAt_of_getElem? hp
  by_cases hrow : p.isRow = true
  · obtain ⟨L', row, hlaid, -⟩ := layoutTableRow_spec fonts hfuel hp h.runs L
    rw [layoutParagraph, hpara, if_pos hrow, hlaid]
    rfl
  · have hrow := Bool.eq_false_iff.2 hrow
    exact layoutParagraph_isSome fonts hpara ⟨h.runs, h.covers hrow⟩ (Nat.lt_of_succ_lt (hfuel.2 p (mem_of_getElem? hp))) hrow L

/-- `a` and a blank. -/
def trailing : Para := { runs := [⟨0, 2, makeDefaultFormat noFamily⟩], text := [byteA, byteSpace] }

/-- `ab` with its `b` in no run. -/
def halfStyled : Para := { runs := [⟨0, 1, makeDefaultFormat noFamily⟩], text := [byteA, byteB] }

theorem trailing_laysOut : trailing.LaysOut where
  runs := cons_ne_nil _ _
  covers _ i hi := by
    refine ⟨_, mem_singleton_self _, ?_⟩
    have hi : i < 2 := hi
    obtain rfl | rfl : i = 0 ∨ i = 1 := by omega
    · decide
    · decide

theorem halfStyled_stuck : Stuck ℚ halfStyled 1 where
  inText := by decide
  letter := by decide
  uncovered r hr := by
    rw [mem_singleton.1 hr]
    decide
  first r hr := by
    rw [← Option.some.inj hr]
    decide
  images i hi h := by
    unfold Para.imageAt at h
    cases of_decide_eq_true h

end Writer
end Prose
