import Prose.LayoutChars
import Prose.WriterColumns
/-!
# LayoutTable — the rows of a table

`TableColumnWidths` and `LayoutTableRow`: a row becomes one line, and each of its cells is wrapped in its column.
-/
namespace Prose
namespace Writer

open List

variable {F : Type} [Points F] [DecidableLT F] (fonts : Fonts F)

/-! ## The model -/

def columnOf (setup : PWPageSetup F) (fmt : PWParaFormat) : F :=
  setup.pageWidth - setup.marginRight - pt fmt.indentRight - (setup.marginLeft + pt fmt.indentLeft)

/-- One turn of the loop over a row's cells in `TableColumnWidths`: where the cell starts, its index, the widths so far. -/
def naturalStep (p : Para) (column : F) : Nat × Nat × List F → Option ((Nat × Nat × List F) ⊕ List F)
  | (start, i, natural) =>
    let stop := start + ((p.text.drop start).takeWhile (· ≠ kCellSep)).length
    let natural := if natural.length ≤ i then natural ++ [pt 40] else natural
    let natural :=
      if start < stop then
        let w := fonts.stringWidth (fontForFormat (formatForSpan fonts p.runs start)) (slice p.text start stop)
        natural.modify i fun n => maxF n (minF (w + pt 16) (column * pt (7 / 10)))
      else natural
    some (if p.text.length ≤ stop then .inr natural else .inl (stop + 1, i + 1, natural))

def tableColumnWidths (fuel : Nat) (setup : PWPageSetup F) (ps : List Para) (firstPara : Nat) : Option (List F) := do
  let column := columnOf setup (paraAt ps firstPara).format
  let rows := List.range' firstPara (tableLast ps firstPara + 1 - firstPara)
  let natural ← rows.foldlM (fun natural i => Loops.loop (naturalStep fonts (paraAt ps i) column) fuel (0, 0, natural)) []
  let sum := natural.foldl (· + ·) 0
  let widths := natural.map fun n => maxF (pt 30) (n / sum * column)
  let sum := widths.foldl (· + ·) 0
  some (widths.map fun w => w / sum * column)

/-- The vector `starts` of `LayoutTableRow`, without its sentinel. -/
def cellStarts (text : List Byte) : List Nat := 0 :: ((List.range text.length).filter (isByte kCellSep.val text)).map (· + 1)

def cellSpans (text : List Byte) : List (Nat × Nat) :=
  (cellStarts text).zip ((cellStarts text).tail.map (· - 1) ++ [text.length])

/-- One turn of the loop that looks for the end of a cell's line: where it reads, how wide it is, the last place to break. -/
def wordStep (fuel : Nat) (p : Para) (width : F) (lineStart stop : Nat) : Nat × F × Nat → Option ((Nat × F × Nat) ⊕ (Nat × Nat))
  | (i, w, lastGood) =>
    if i < stop then
      let next := utf8Next p.text i p.text.length
      (byteWidthOfSpan fonts fuel p i next).map fun cw =>
        if width - pt 8 < w + cw ∧ lineStart < lastGood then .inr (i, lastGood)
        else
          .inl (next, w + cw,
            if isByte 32 p.text (next - 1) ∨ stop ≤ next then next else if isByte 32 p.text next then next else lastGood)
    else some (.inr (i, lastGood))

def wrapStep (fuel : Nat) (p : Para) (width ascent descent : F) (start stop : Nat) :
    Nat × List (CellLine F) → Option ((Nat × List (CellLine F)) ⊕ List (CellLine F))
  | (lineStart, lines) =>
    if lineStart < stop ∨ lineStart = start ∧ stop = start then
      (Loops.loop (wordStep fonts fuel p width lineStart stop) fuel (lineStart, 0, lineStart)).map fun (i, lastGood) =>
        let lastGood := if lastGood ≤ lineStart then min (max i (lineStart + 1)) stop else lastGood
        let lines := lines ++ [⟨lineStart, lastGood - lineStart, ascent, ascent + descent⟩]
        if stop ≤ lastGood then .inr lines else .inl (skipSpaces p.text stop lastGood, lines)
    else some (.inr lines)

def wrapCell (fuel : Nat) (p : Para) (width ascent descent : F) (start stop : Nat) : Option (List (CellLine F)) :=
  (Loops.loop (wrapStep fonts fuel p width ascent descent start stop) fuel (start, [])).map fun lines =>
    if lines.isEmpty then lines ++ [⟨start, 0, ascent, ascent + descent⟩] else lines

/-- The cells from `edge` on. -/
def layoutCells (fuel : Nat) (p : Para) (ascent descent : F) : List ((Nat × Nat) × F) → F → Option (List (CellLayout F))
  | [], _ => some []
  | ((start, stop), width) :: cells, edge => do
    let lines ← wrapCell fonts fuel p width ascent descent start (max stop start)
    let rest ← layoutCells fuel p ascent descent cells (edge + width)
    some (⟨start, edge, width, lines⟩ :: rest)

def layoutTableRow (fuel : Nat) (L : PWLayout F) (ps : List Para) (para : Nat) : Option (PWLayout F) := do
  let p := paraAt ps para
  let widths ← tableColumnWidths fonts fuel L.fSetup ps (tableFirst ps para)
  let spans := cellSpans p.text
  let widths := widths ++ List.replicate (spans.length - widths.length) (pt 30)
  let edge := L.fSetup.marginLeft + pt p.format.indentLeft
  let fh := fonts.getHeight { fontForFormat (formatForSpan fonts p.runs 0) with bold := false, italic := false }
  let ascent := fh.ascent * pt p.format.lineSpacing
  let descent := (fh.descent + fh.leading) * pt p.format.lineSpacing
  let cells ← layoutCells fonts fuel p ascent descent (spans.zip widths) edge
  let height := cells.foldl (fun h c => maxF h (pt c.lines.length * (ascent + descent))) 0 + pt 8
  some { L with
    fRows := L.fRows.set p.id ⟨para, height, cells⟩
    fLines := L.fLines ++ [{
      para := para, length := p.text.length, x := edge, y := 0, width := columnOf L.fSetup p.format, height := height
      baseline := ascent, last := true, table := true }] }

/-! ## The cells of a row -/

theorem isByte_zero {c : UInt8} {b : Byte} {t : List Byte} : isByte c (b :: t) 0 = (b.val == c) := rfl

def seps (text : List Byte) : List Nat := (List.range text.length).filter (isByte kCellSep.val text)

theorem seps_cons (b : Byte) (t : List Byte) : seps (b :: t) = (if b = kCellSep then [0] else []) ++ (seps t).map (· + 1) := by
  unfold seps
  rw [length_cons, range_succ_eq_map, filter_cons, filter_map]
  have hfilter : (List.range t.length).filter (isByte kCellSep.val (b :: t) ∘ Nat.succ) =
      (List.range t.length).filter (isByte kCellSep.val t) := rfl
  rw [hfilter, isByte_zero]
  by_cases hb : b = kCellSep
  · rw [if_pos hb, hb, if_pos (beq_self_eq_true _)]
    rfl
  · rw [if_neg hb, if_neg (fun h => hb (Subtype.ext (beq_iff_eq.1 h)))]
    rfl

theorem cellSpans_eq (text : List Byte) : cellSpans text = (0 :: (seps text).map (· + 1)).zip (seps text ++ [text.length]) := by
  unfold cellSpans cellStarts
  rw [tail_cons, map_map]
  have hback : ((· - 1) ∘ (· + 1) : Nat → Nat) = id := rfl
  rw [hback, map_id]
  rfl

def shift (s : Nat × Nat) : Nat × Nat := (s.1 + 1, s.2 + 1)

theorem zip_shift (l m : List Nat) : (l.map (· + 1)).zip (m.map (· + 1)) = (l.zip m).map shift := zip_map

theorem cellSpans_cons (b : Byte) (t : List Byte) : ∃ e rest, cellSpans t = (0, e) :: rest ∧ (∀ s ∈ rest, s.1 ≠ 0) ∧
    cellSpans (b :: t) = if b = kCellSep then (0, 0) :: (cellSpans t).map shift else (0, e + 1) :: rest.map shift := by
  have hshift : (seps t).map (· + 1) ++ [t.length + 1] = (seps t ++ [t.length]).map (· + 1) := by
    rw [map_append, map_singleton]
  obtain ⟨e, ends, he⟩ : ∃ e ends, seps t ++ [t.length] = e :: ends := by
    cases seps t with
    | nil => exact ⟨_, _, rfl⟩
    | cons e ends => exact ⟨_, _, rfl⟩
  refine ⟨e, ((seps t).map (· + 1)).zip ends, by rw [cellSpans_eq, he, zip_cons_cons], fun s hs => ?_, ?_⟩
  · obtain ⟨k, -, hk⟩ := mem_map.1 (of_mem_zip hs).1
    omega
  rw [cellSpans_eq, seps_cons, length_cons]
  split
  · rw [singleton_append, cons_append, zip_cons_cons, map_cons, hshift, cellSpans_eq, ← zip_shift,
      map_cons]
  · rw [nil_append, hshift, he, map_cons, zip_cons_cons, zip_shift]

theorem cellSpans_cells : ∀ text : List Byte, (cellSpans text).map (fun s => (text.drop s.1).take (s.2 - s.1)) = rowCells text
  | []     => rfl
  | b :: t => by
    obtain ⟨e, rest, ht, -, hcons⟩ := cellSpans_cons b t
    have ih := cellSpans_cells t
    have hmap (l : List (Nat × Nat)) : (l.map shift).map (fun s => ((b :: t).drop s.1).take (s.2 - s.1)) =
        l.map (fun s => (t.drop s.1).take (s.2 - s.1)) := by
      rw [map_map]
      refine map_congr_left fun s _ => ?_
      simp only [Function.comp, shift, drop_succ_cons, Nat.add_sub_add_right]
    rw [hcons, rowCells_cons, ← ih]
    split
    · rw [map_cons, hmap]
      rfl
    · rw [map_cons, hmap, ht, map_cons]
      rfl

theorem cellSpans_bounds : ∀ {text : List Byte} {s : Nat × Nat}, s ∈ cellSpans text → s.1 ≤ s.2 ∧ s.2 ≤ text.length ∧
    (s.1 = 0 ∨ ∃ k, s.1 = k + 1 ∧ text[k]? = some kCellSep) ∧ (s.2 = text.length ∨ text[s.2]? = some kCellSep)
  | [], s, h => by
    cases mem_singleton.1 h
    exact ⟨Nat.le_refl _, Nat.le_refl _, .inl rfl, .inl rfl⟩
  | b :: t, s, h => by
    obtain ⟨e, rest, ht, hlater, hcons⟩ := cellSpans_cons b t
    have hfirst := @cellSpans_bounds t (0, e) (by rw [ht]; exact mem_cons_self)
    have hshift : ∀ s ∈ cellSpans t, (s.1 = 0 → b = kCellSep) → (shift s).1 ≤ (shift s).2 ∧ (shift s).2 ≤ (b :: t).length ∧
        ((shift s).1 = 0 ∨ ∃ k, (shift s).1 = k + 1 ∧ (b :: t)[k]? = some kCellSep) ∧
        ((shift s).2 = (b :: t).length ∨ (b :: t)[(shift s).2]? = some kCellSep) := fun s hs hb => by
      obtain ⟨h1, h2, h3, h4⟩ := cellSpans_bounds hs
      refine ⟨Nat.succ_le_succ h1, Nat.succ_le_succ h2, .inr ⟨s.1, rfl, ?_⟩, ?_⟩
      · rcases h3 with h3 | ⟨k, h3, hk⟩
        · rw [h3, hb h3]
          rfl
        · rw [h3]
          exact hk
      · rcases h4 with h4 | h4
        · exact .inl (congrArg (· + 1) h4)
        · exact .inr h4
    rw [hcons] at h
    split at h
    · rename_i hb
      rcases mem_cons.1 h with rfl | h
      · exact ⟨Nat.le_refl _, Nat.zero_le _, .inl rfl, .inr (by rw [hb]; rfl)⟩
      · obtain ⟨s', hs', rfl⟩ := mem_map.1 h
        exact hshift s' hs' fun _ => hb
    rcases mem_cons.1 h with rfl | h
    · refine ⟨Nat.zero_le _, Nat.succ_le_succ hfirst.2.1, .inl rfl, ?_⟩
      rcases hfirst.2.2.2 with h4 | h4
      · exact .inl (congrArg (· + 1) h4)
      · exact .inr h4
    · obtain ⟨s', hs', rfl⟩ := mem_map.1 h
      exact hshift s' (by rw [ht]; exact mem_cons_of_mem _ hs') fun h0 => absurd h0 (hlater s' hs')

/-! ## Wrapping a cell -/

/-- The lines of the cell `[start, stop)` lie in it, one behind the other, and what they leave out is spaces behind a line. -/
structure CellWrapped (text : List Byte) (start stop : Nat) (lines : List (CellLine F)) : Prop where
  within : ∀ l ∈ lines, start ≤ l.startByte ∧ l.startByte + l.length ≤ stop
  apart : lines.Pairwise (fun a b => a.startByte + a.length ≤ b.startByte)
  left : ∀ i, start ≤ i → i < stop → (∀ l ∈ lines, ¬ (l.startByte ≤ i ∧ i < l.startByte + l.length)) →
    ∃ l ∈ lines, l.startByte + l.length ≤ i ∧ ∀ j, l.startByte + l.length ≤ j → j ≤ i → isByte 32 text j = true

omit [Points F] [DecidableLT F] in
theorem CellWrapped.nil {text : List Byte} {start : Nat} : CellWrapped text start start ([] : List (CellLine F)) where
  within l hl := absurd hl not_mem_nil
  apart := List.Pairwise.nil
  left i h1 h2 := by omega

omit [Points F] [DecidableLT F] in
theorem CellWrapped.push {text : List Byte} {start at' next : Nat} {lines : List (CellLine F)} (h : CellWrapped text start at' lines)
    {l : CellLine F} (hstart : start ≤ at') (hl : l.startByte = at') (hnext : at' + l.length ≤ next)
    (hspaces : ∀ j, at' + l.length ≤ j → j < next → isByte 32 text j = true) : CellWrapped text start next (lines ++ [l]) where
  within m hm := by
    rcases mem_append.1 hm with hm | hm
    · have := h.within m hm
      omega
    · rw [mem_singleton.1 hm]
      omega
  apart := by
    refine pairwise_append.2 ⟨h.apart, pairwise_singleton _ _, fun m hm k hk => ?_⟩
    rw [mem_singleton.1 hk, hl]
    exact (h.within m hm).2
  left i h1 h2 hout := by
    by_cases hi : i < at'
    · obtain ⟨m, hm, hspace⟩ := h.left i h1 hi fun m hm => hout m (mem_append_left _ hm)
      exact ⟨m, mem_append_left _ hm, hspace⟩
    · have hlast := mem_append_right lines (mem_singleton_self l)
      have := hout l hlast
      refine ⟨l, hlast, by omega, fun j hj hji => hspaces j (by omega) (by omega)⟩

theorem firstRunAt_some {runs : List PWRun} (hruns : runs ≠ []) (b : Nat) : ∃ r, firstRunAt runs b = some r := by
  unfold firstRunAt
  cases runs with
  | nil => exact absurd rfl hruns
  | cons r rs =>
    cases (r :: rs).find? (·.covers b) with
    | none => exact ⟨r, rfl⟩
    | some q => exact ⟨q, rfl⟩

omit [DecidableLT F] in
theorem measureWithRuns_total {runs : List PWRun} (hruns : runs ≠ []) (text : List Byte) {fuel start stop : Nat}
    (hfuel : stop - start < fuel) : ∃ w, measureWithRuns fonts fuel runs text start stop = some w := by
  have hbody : ∀ s : Nat × F, True → decide (s.1 < stop) = true →
      ∃ t, measureStep fonts runs text stop s = some t ∧ True ∧ stop - t.1 < stop - s.1 := fun s _ ht => by
    have hlt : s.1 < stop := of_decide_eq_true ht
    obtain ⟨r, hr⟩ := firstRunAt_some hruns s.1
    refine ⟨_, by rw [measureStep, hr, Option.map_some], trivial, ?_⟩
    dsimp only
    split <;> omega
  obtain ⟨r, hr, -⟩ := Loops.whileDo_total _ (fun s : Nat × F => stop - s.1) hbody (s := (start, 0)) hfuel trivial
  exact ⟨r.2, by rw [measureWithRuns, hr, Option.map_some]⟩

theorem byteWidthOfSpan_total {p : Para} (hruns : p.runs ≠ []) {fuel start stop : Nat} (hfuel : stop - start < fuel) :
    ∃ w, byteWidthOfSpan fonts fuel p start stop = some w := by
  unfold byteWidthOfSpan
  split
  · exact ⟨_, rfl⟩
  · split
    · exact ⟨_, rfl⟩
    · exact measureWithRuns_total fonts hruns _ hfuel

/-- In the middle of a cell's line: at the cell's end all that is read is good for the line, and in a text what is read ends between
two characters, as does what is good. -/
structure InWord (text : List Byte) (lineStart stop : Nat) (s : Nat × F × Nat) : Prop where
  bounds : lineStart ≤ s.1 ∧ lineStart ≤ s.2.2
  all : stop ≤ s.1 → lineStart < s.2.2
  chars : IsText text → Boundary text s.1 ∧ s.1 ≤ stop ∧ Boundary text s.2.2 ∧ s.2.2 ≤ stop

def WordEnd (text : List Byte) (lineStart stop e : Nat) : Prop := lineStart < e ∧ (IsText text → Boundary text e ∧ e ≤ stop)

theorem word_step {p : Para} (hruns : p.runs ≠ []) {fuel lineStart stop : Nat} (hfuel : p.text.length < fuel)
    (hle : stop ≤ p.text.length) (hstop : IsText p.text → Boundary p.text stop) (width : F) (s : Nat × F × Nat)
    (hs : InWord p.text lineStart stop s) :
    (∃ t, wordStep fonts fuel p width lineStart stop s = some (.inl t) ∧ InWord p.text lineStart stop t ∧ stop - t.1 < stop - s.1) ∨
      ∃ r, wordStep fonts fuel p width lineStart stop s = some (.inr r) ∧ WordEnd p.text lineStart stop r.2 := by
  obtain ⟨i, w, lastGood⟩ := s
  obtain ⟨⟨h1, h2⟩, hall, hchars⟩ := hs
  dsimp only at h1 h2 hall hchars
  unfold wordStep
  dsimp only
  by_cases hin : i < stop
  · have hlen : i < p.text.length := Nat.lt_of_lt_of_le hin hle
    have hnext := lt_utf8Next p.text hlen
    have hbound := utf8Next_le p.text i p.text.length
    have hge : lineStart < utf8Next p.text i p.text.length := Nat.lt_of_le_of_lt h1 hnext
    have hchars' (ht : IsText p.text) :
        Boundary p.text (utf8Next p.text i p.text.length) ∧ utf8Next p.text i p.text.length ≤ stop :=
      ⟨((hchars ht).1.next hlen).1, (hchars ht).1.next_le (hstop ht) hin⟩
    obtain ⟨cw, hcw⟩ : ∃ cw, byteWidthOfSpan fonts fuel p i (utf8Next p.text i p.text.length) = some cw :=
      byteWidthOfSpan_total fonts hruns (by omega)
    rw [if_pos hin, hcw, Option.map_some]
    split
    · rename_i hbreak
      exact .inr ⟨_, rfl, hbreak.2, fun ht => (hchars ht).2.2⟩
    refine .inl ⟨_, rfl, ?_, by dsimp only; omega⟩
    have hfresh : InWord p.text lineStart stop
        (utf8Next p.text i p.text.length, w + cw, utf8Next p.text i p.text.length) :=
      ⟨⟨Nat.le_of_lt hge, Nat.le_of_lt hge⟩, fun _ => hge,
        fun ht => ⟨(hchars' ht).1, (hchars' ht).2, (hchars' ht).1, (hchars' ht).2⟩⟩
    split
    · exact hfresh
    rename_i hno
    split
    · exact hfresh
    · exact ⟨⟨Nat.le_of_lt hge, h2⟩, fun he => absurd (.inr he) hno,
        fun ht => ⟨(hchars' ht).1, (hchars' ht).2, (hchars ht).2.2⟩⟩
  · rw [if_neg hin]
    exact .inr ⟨_, rfl, hall (Nat.not_lt.1 hin), fun ht => (hchars ht).2.2⟩

/-- **The end of a cell's line**: behind its start, and in a text between two characters of the cell. -/
theorem word_spec {p : Para} (hruns : p.runs ≠ []) {fuel lineStart stop : Nat} (hfuel : p.text.length < fuel)
    (hle : stop ≤ p.text.length) (hstop : IsText p.text → Boundary p.text stop) (hlt : lineStart < stop)
    (hstart : IsText p.text → Boundary p.text lineStart) (width : F) :
    ∃ r, Loops.loop (wordStep fonts fuel p width lineStart stop) fuel (lineStart, 0, lineStart) = some r ∧
      WordEnd p.text lineStart stop r.2 := by
  refine Loops.loop_total (word_step fonts hruns hfuel hle hstop width) (show stop - lineStart < fuel by omega) ?_
  exact ⟨⟨Nat.le_refl _, Nat.le_refl _⟩, fun h => absurd h (Nat.not_le.2 hlt),
    fun ht => ⟨hstart ht, Nat.le_of_lt hlt, hstart ht, Nat.le_of_lt hlt⟩⟩

structure InCell (text : List Byte) (start stop : Nat) (s : Nat × List (CellLine F)) : Prop where
  bounds : start ≤ s.1 ∧ s.1 ≤ stop
  first : s.2 = [] → s.1 = start
  chars : IsText text → Boundary text s.1
  wrapped : IsText text → CellWrapped text start s.1 s.2

theorem Boundary.skipSpaces {text : List Byte} (htext : IsText text) {e : Nat} (h : Boundary text e) (stop : Nat) :
    Boundary text (skipSpaces text stop e) := by
  have hskip := le_skipSpaces text stop e
  by_cases he : Writer.skipSpaces text stop e = e
  · rwa [he]
  have hspace := @skipSpaces_spaces text stop e (Writer.skipSpaces text stop e - 1) (by omega) (by omega)
  obtain ⟨b, hb, hval⟩ := isByte_iff.1 hspace
  have := (Boundary.ascii htext hb (by rw [hval]; decide)).2
  rwa [Nat.sub_add_cancel (by omega)] at this

theorem wrap_step {p : Para} (hruns : p.runs ≠ []) {fuel start stop : Nat} (hfuel : p.text.length < fuel)
    (hle : stop ≤ p.text.length) (hstop : IsText p.text → Boundary p.text stop) (width ascent descent : F)
    (s : Nat × List (CellLine F)) (hs : InCell p.text start stop s) :
    (∃ t, wrapStep fonts fuel p width ascent descent start stop s = some (.inl t) ∧ InCell p.text start stop t ∧
      stop - t.1 < stop - s.1) ∨
      ∃ r, wrapStep fonts fuel p width ascent descent start stop s = some (.inr r) ∧ r ≠ [] ∧
        (IsText p.text → CellWrapped p.text start stop r) := by
  obtain ⟨lineStart, lines⟩ := s
  obtain ⟨⟨h1, h2⟩, hfirst, hchars, hwrapped⟩ := hs
  dsimp only at h1 h2 hfirst hchars hwrapped
  have hmore (l : CellLine F) : lines ++ [l] ≠ [] := append_ne_nil_of_right_ne_nil _ (cons_ne_nil _ _)
  unfold wrapStep
  dsimp only
  by_cases hlt : lineStart < stop
  · obtain ⟨⟨i, e⟩, hloop, hgt, hend⟩ := word_spec fonts hruns hfuel hle hstop hlt hchars width
    dsimp only at hgt hend
    rw [if_pos (.inl hlt), hloop, Option.map_some]
    dsimp only
    rw [if_neg (Nat.not_le.2 hgt)]
    split
    · refine .inr ⟨_, rfl, hmore _, fun ht => (hwrapped ht).push h1 rfl ?_ ?_⟩
      · have := (hend ht).2
        dsimp only
        omega
      · intro j hj hjs
        dsimp only at hj
        omega
    · rename_i hin
      have hskip := le_skipSpaces p.text stop e
      have hskip' := skipSpaces_le p.text (Nat.le_of_lt (Nat.not_le.1 hin))
      refine .inl ⟨_, rfl, ⟨⟨by dsimp only; omega, hskip'⟩, fun hnil => absurd hnil (hmore _),
        fun ht => (hend ht).1.skipSpaces ht stop, fun ht => (hwrapped ht).push h1 rfl ?_ ?_⟩, by dsimp only; omega⟩
      · dsimp only
        omega
      · intro j hj hjs
        dsimp only at hj
        exact skipSpaces_spaces (by omega) hjs
  · by_cases hempty : lineStart = start ∧ stop = start
    · have hturn : wordStep fonts fuel p width lineStart stop (lineStart, 0, lineStart) = some (.inr (lineStart, lineStart)) :=
        if_neg hlt
      obtain ⟨n, rfl⟩ := Nat.exists_eq_add_of_lt hfuel
      have hend : min (max lineStart (lineStart + 1)) stop = stop := by omega
      rw [if_pos (.inr hempty), Loops.loop, hturn, Option.map_some]
      dsimp only
      rw [if_pos (Nat.le_refl _), hend, if_pos (Nat.le_refl _)]
      refine .inr ⟨_, rfl, hmore _, fun ht => (hwrapped ht).push h1 rfl ?_ ?_⟩
      · dsimp only
        omega
      · intro j hj hjs
        dsimp only at hj
        omega
    · rw [if_neg (fun h => h.elim hlt hempty)]
      refine .inr ⟨_, rfl, fun hnil => hempty ⟨hfirst hnil, ?_⟩, fun ht => ?_⟩
      · have := hfirst hnil
        omega
      · rw [show stop = lineStart by omega]
        exact hwrapped ht

/-! ## Rows -/

structure CellEnds (text : List Byte) (span : Nat × Nat) : Prop where
  le : span.1 ≤ span.2
  bound : span.2 ≤ text.length
  start : IsText text → Boundary text span.1
  stop : IsText text → Boundary text span.2

structure CellLaidOut (text : List Byte) (span : Nat × Nat) (cell : CellLayout F) : Prop where
  firstByte : cell.firstByte = span.1
  lines : cell.lines ≠ []
  wrapped : IsText text → CellWrapped text span.1 span.2 cell.lines

theorem wrapCell_spec {p : Para} (hruns : p.runs ≠ []) {fuel : Nat} (hfuel : p.text.length < fuel) {span : Nat × Nat}
    (h : CellEnds p.text span) (width ascent descent : F) :
    ∃ lines, wrapCell fonts fuel p width ascent descent span.1 span.2 = some lines ∧ lines ≠ [] ∧
      (IsText p.text → CellWrapped p.text span.1 span.2 lines) := by
  have := h.bound
  obtain ⟨lines, hloop, hne, hwrapped⟩ := Loops.loop_total (n := fuel) (s := (span.1, []))
    (wrap_step fonts hruns hfuel h.bound h.stop width ascent descent) (show span.2 - span.1 < fuel by omega)
    ⟨⟨Nat.le_refl _, h.le⟩, fun _ => rfl, h.start, fun _ => CellWrapped.nil⟩
  refine ⟨lines, ?_, hne, hwrapped⟩
  rw [wrapCell, hloop, Option.map_some, if_neg (by rwa [List.isEmpty_iff])]

theorem layoutCells_spec {p : Para} (hruns : p.runs ≠ []) {fuel : Nat} (hfuel : p.text.length < fuel) (ascent descent : F) :
    ∀ (cells : List ((Nat × Nat) × F)) (edge : F), (∀ c ∈ cells, CellEnds p.text c.1) →
      ∃ laid, layoutCells fonts fuel p ascent descent cells edge = some laid ∧
        List.Forall₂ (fun c cell => CellLaidOut p.text c.1 cell) cells laid
  | [], edge, _ => ⟨[], rfl, List.Forall₂.nil⟩
  | ((start, stop), width) :: cells, edge, h => by
    have hends : CellEnds p.text (start, stop) := h _ mem_cons_self
    obtain ⟨lines, hlines, hne, hwrapped⟩ := wrapCell_spec fonts hruns hfuel hends width ascent descent
    obtain ⟨laid, hlaid, hall⟩ := layoutCells_spec hruns hfuel ascent descent cells (edge + width)
      fun c hc => h c (mem_cons_of_mem _ hc)
    refine ⟨⟨start, edge, width, lines⟩ :: laid, ?_, List.Forall₂.cons ⟨rfl, hne, hwrapped⟩ hall⟩
    rw [layoutCells, Nat.max_eq_left hends.le, hlines, Option.bind_eq_bind, Option.bind_some, hlaid]
    rfl

def Enough (fuel : Nat) (ps : List Para) : Prop := 1 < fuel ∧ ∀ p ∈ ps, p.text.length + 1 < fuel

theorem exists_enough : ∀ ps : List Para, ∃ n, ∀ fuel, n ≤ fuel → Enough fuel ps
  | []      => ⟨2, fun fuel h => ⟨h, fun p hp => absurd hp not_mem_nil⟩⟩
  | p :: ps => by
    obtain ⟨n, hn⟩ := exists_enough ps
    refine ⟨max n (p.text.length + 2), fun fuel h => ⟨(hn fuel (by omega)).1, fun q hq => ?_⟩⟩
    rcases mem_cons.1 hq with rfl | hq
    · omega
    · exact (hn fuel (by omega)).2 q hq

theorem Enough.paraAt {fuel : Nat} {ps : List Para} (h : Enough fuel ps) (i : Nat) : (paraAt ps i).text.length + 1 < fuel := by
  unfold Writer.paraAt
  rw [getD_eq_getElem?_getD]
  cases hi : ps[i]? with
  | none => exact h.1
  | some p => exact h.2 p (mem_of_getElem? hi)

theorem natural_total {p : Para} {fuel : Nat} (hfuel : p.text.length + 1 < fuel) (column : F) (natural : List F) :
    ∃ r, Loops.loop (naturalStep fonts p column) fuel (0, 0, natural) = some r := by
  have hstep : ∀ s : Nat × Nat × List F, True → (∃ t, naturalStep fonts p column s = some (.inl t) ∧ True ∧
      p.text.length + 1 - t.1 < p.text.length + 1 - s.1) ∨ ∃ r, naturalStep fonts p column s = some (.inr r) ∧ True := by
    rintro ⟨start, i, natural⟩ -
    unfold naturalStep
    dsimp only
    split
    · exact .inr ⟨_, rfl, trivial⟩
    · exact .inl ⟨_, rfl, trivial, by dsimp only; omega⟩
  obtain ⟨r, hr, -⟩ := Loops.loop_total (n := fuel) (s := (0, 0, natural)) hstep
    (show p.text.length + 1 - 0 < fuel by omega) trivial
  exact ⟨r, hr⟩

theorem foldlM_total {α β : Type} {f : β → α → Option β} (h : ∀ b a, ∃ b', f b a = some b') : ∀ (l : List α) (b : β),
    ∃ b', l.foldlM f b = some b'
  | [], b => ⟨b, rfl⟩
  | a :: l, b => by
    obtain ⟨b', hb'⟩ := h b a
    obtain ⟨b'', hb''⟩ := foldlM_total h l b'
    exact ⟨b'', by rw [foldlM_cons, hb', Option.bind_eq_bind, Option.bind_some, hb'']⟩

theorem tableColumnWidths_total {fuel : Nat} {ps : List Para} (hfuel : Enough fuel ps) (setup : PWPageSetup F) (firstPara : Nat) :
    ∃ widths, tableColumnWidths fonts fuel setup ps firstPara = some widths := by
  obtain ⟨natural, hnatural⟩ := foldlM_total
    (f := fun natural i => Loops.loop (naturalStep fonts (paraAt ps i) (columnOf setup (paraAt ps firstPara).format)) fuel (0, 0, natural))
    (fun natural i => natural_total fonts (hfuel.paraAt i) _ natural)
    (List.range' firstPara (tableLast ps firstPara + 1 - firstPara)) []
  unfold tableColumnWidths
  dsimp only
  rw [hnatural]
  exact ⟨_, rfl⟩

structure RowLine (p : Para) (para : Nat) (l : Line F) : Prop where
  para : l.para = para
  table : l.table = true
  start : l.startPara = 0
  length : l.length = p.text.length
  last : l.last = true

/-- **What `LayoutTableRow` does**: it keeps the row's cells and appends a line. -/
theorem layoutTableRow_of {fuel : Nat} {ps : List Para} {para : Nat} {p : Para} (hpara : paraAt ps para = p) {L L' : PWLayout F}
    (h : layoutTableRow fonts fuel L ps para = some L') :
    ∃ row l, L' = { L with fRows := L.fRows.set p.id row, fLines := L.fLines ++ [l] } ∧ RowLine p para l := by
  unfold layoutTableRow at h
  rw [hpara] at h
  obtain ⟨widths, -, h⟩ := Option.bind_eq_some_iff.1 h
  obtain ⟨cells, -, h⟩ := Option.bind_eq_some_iff.1 h
  exact ⟨_, _, (Option.some.inj h).symm, ⟨rfl, rfl, rfl, rfl, rfl⟩⟩

theorem cellEnds {text : List Byte} {s : Nat × Nat} (hs : s ∈ cellSpans text) : CellEnds text s := by
  obtain ⟨hle, hlength, hstart, hstop⟩ := cellSpans_bounds hs
  have hsep : kCellSep.val.toNat < 0x80 := by decide
  refine ⟨hle, hlength, fun ht => ?_, fun ht => ?_⟩
  · rcases hstart with h | ⟨k, h, hk⟩
    · rw [h]
      exact Boundary.zero ht
    · rw [h]
      exact (Boundary.ascii ht hk hsep).2
  · rcases hstop with h | h
    · rw [h]
      exact Boundary.length ht
    · exact (Boundary.ascii ht h hsep).1

theorem layoutTableRow_spec {fuel : Nat} {ps : List Para} (hfuel : Enough fuel ps) {para : Nat} {p : Para} (hp : ps[para]? = some p)
    (hruns : p.runs ≠ []) (L : PWLayout F) :
    ∃ L' row, layoutTableRow fonts fuel L ps para = some L' ∧ L'.fRows = L.fRows.set p.id row ∧
      List.Forall₂ (CellLaidOut p.text) (cellSpans p.text) row.cells := by
  have hpara : paraAt ps para = p := paraAt_of_getElem? hp
  obtain ⟨widths, hwidths⟩ := tableColumnWidths_total fonts hfuel L.fSetup (tableFirst ps para)
  unfold layoutTableRow
  rw [hwidths, Option.bind_eq_bind, Option.bind_some, hpara]
  dsimp only
  generalize hfull : widths ++ List.replicate ((cellSpans p.text).length - widths.length) (pt 30) = full
  have hlength : (cellSpans p.text).length ≤ full.length := by
    rw [← hfull, length_append, length_replicate]
    omega
  generalize L.fSetup.marginLeft + pt p.format.indentLeft = edge
  obtain ⟨laid, hlaid, hall⟩ := layoutCells_spec fonts hruns
    (Nat.lt_of_succ_lt (hfuel.2 p (mem_of_getElem? hp))) _ _ ((cellSpans p.text).zip full) edge
    fun c hc => cellEnds (of_mem_zip hc).1
  rw [hlaid]
  refine ⟨_, _, rfl, rfl, ?_⟩
  have hmap : ((cellSpans p.text).zip full).map Prod.fst = cellSpans p.text := map_fst_zip hlength
  rw [← hmap, List.forall₂_map_left_iff]
  exact hall

structure CellHolds (text : List Byte) (span : Nat × Nat) (cell : CellLayout F) : Prop where
  firstByte : cell.firstByte = span.1
  lines : cell.lines ≠ []
  wrapped : CellWrapped text span.1 span.2 cell.lines

/-- **A table row of UTF-8 is laid out, whatever its width and however its bytes measure**: its cells are the texts between its
separators, every one has a line, its lines lie in it one behind the other, and what they leave out is spaces behind a line. -/
theorem table_row_wrapped (ps : List Para) (para : Nat) (p : Para) (hp : ps[para]? = some p) (hruns : p.runs ≠ [])
    (htext : IsText p.text) (L : PWLayout F) : ∃ n, ∀ fuel, n ≤ fuel → ∃ L' row, layoutTableRow fonts fuel L ps para = some L' ∧
      L'.fRows.get? p.id = some row ∧ (cellSpans p.text).map (fun s => (p.text.drop s.1).take (s.2 - s.1)) = p.text.splitOn kCellSep ∧
      List.Forall₂ (CellHolds p.text) (cellSpans p.text) row.cells := by
  obtain ⟨n, hn⟩ := exists_enough ps
  refine ⟨n, fun fuel hfuel => ?_⟩
  obtain ⟨L', row, hrow, hrows, hcells⟩ := layoutTableRow_spec fonts (hn fuel hfuel) hp hruns L
  refine ⟨L', row, hrow, ?_, cellSpans_cells p.text, hcells.imp fun _ _ h => ⟨h.firstByte, h.lines, h.wrapped htext⟩⟩
  rw [hrows, SortedMap.get?_set, if_pos rfl]

def evenFonts : Fonts ℚ where
  stringWidth _ t := 6 * t.length
  getHeight _ := ⟨8, 2, 0⟩
  plain := noFamily

def plainSetup : PWPageSetup ℚ := ⟨595, 842, 72, 72, 72, 72⟩

theorem ne_188 : (188 : UInt8) ≠ 0 := by decide

/-- A row of three cells: a word with its umlaut, and nothing twice. -/
def umlautRow : Para :=
  { runs := [⟨0, 5, makeDefaultFormat noFamily⟩]
    text := [byteA, ⟨0xC3, by decide⟩, ⟨0xBC, ne_188⟩, kCellSep, kCellSep] }

theorem table_row_wrapped_umlaut : ∃ n, ∀ fuel, n ≤ fuel → ∃ L' row,
    layoutTableRow evenFonts fuel { fSetup := plainSetup } [umlautRow] 0 = some L' ∧
      L'.fRows.get? 0 = some row ∧ (cellSpans umlautRow.text).map (fun s => (umlautRow.text.drop s.1).take (s.2 - s.1)) =
        umlautRow.text.splitOn kCellSep ∧
      List.Forall₂ (CellHolds umlautRow.text) (cellSpans umlautRow.text) row.cells :=
  table_row_wrapped evenFonts [umlautRow] 0 umlautRow rfl (cons_ne_nil _ _) ⟨['a', 'ü', Char.ofNat 29, Char.ofNat 29], by decide⟩
    { fSetup := plainSetup }

end Writer
end Prose
