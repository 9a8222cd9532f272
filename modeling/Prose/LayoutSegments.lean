import Prose.LayoutOffsets
/-!
# LayoutSegments — `FillSegments`

A line falls into the pieces it is drawn in: runs, tabs and images, and on a justified line the gaps between words.  On a justified line
the walk that looks for the gap behind a word ends at an image too, and takes it for a gap of no bytes.
-/
namespace Prose
namespace Writer

open List

variable {F : Type} [Points F] [DecidableLE F] [DecidableLT F] (fonts : Fonts F)

/-! ## The model -/

structure Segment (F : Type) where
  isImage : Bool := false
  imageW : F
  imageH : F
  run : PWRun
  startPara : Nat
  length : Nat
  x : F
  baseline : F

def lineIsJustified (ps : List Para) (l : Line F) : Bool := (paraAt ps l.para).format.alignment = .justify && !l.last

def slackPerGap (setup : PWPageSetup F) (ps : List Para) (l : Line F) : F :=
  let fmt := (paraAt ps l.para).format
  let gaps := (((paraAt ps l.para).text.drop l.startPara).take l.length).countP fun c => c.val == 32
  if gaps = 0 then 0
  else
    let column := setup.textWidth - pt fmt.indentLeft - pt fmt.indentRight - (if fmt.listKind ≠ .none then pt 18 else pt 0)
    let slack := column - l.width
    if 0 < slack then slack / pt gaps else 0

structure Drawing (F : Type) where
  p : Para
  line : Line F
  justify : Bool
  slack : F
  edge : F

def Drawing.stop (c : Drawing F) : Nat := c.line.startPara + c.line.length

structure Walk (F : Type) where
  b : Nat
  x : F
  out : List (Segment F) := []

/-- `pushSeg`: the piece `[start, stop)`, and where the pen is behind it. -/
def pushSeg (c : Drawing F) (r : PWRun) (start stop : Nat) (w : Walk F) : Walk F :=
  let size : F × F := c.p.imageSizeAt start
  let s : Segment F :=
    { imageW := 0, imageH := 0, run := r, startPara := start, length := stop - start, x := w.x, baseline := c.line.y + c.line.baseline }
  if 0 < size.1 then
    { b := stop, x := w.x + size.1, out := w.out ++ [{ s with isImage := true, imageW := size.1, imageH := size.2 }] }
  else if stop - start = 1 ∧ isByte 9 c.p.text start then
    { b := stop, x := w.x + (byteWidth fonts c.p false start w.x c.edge).getD 0, out := w.out ++ [s] }
  else
    let x := w.x + fonts.stringWidth (fontForRun r) (slice c.p.text start stop)
    { b := stop
      x := if c.justify ∧ stop < c.stop ∧ isByte 32 c.p.text (stop - 1) then x + c.slack else x
      out := w.out ++ [s] }

/-- The first of the next `n` places that stops a walk, or the place behind them. -/
def scan (stops : Nat → Bool) : Nat → Nat → Nat
  | i, 0     => i
  | i, n + 1 => if stops i then i else scan stops (i + 1) n

def plainBody (c : Drawing F) (r : PWRun) (segEnd : Nat) (w : Walk F) : Option (Walk F) :=
  if c.p.imageAt F w.b then some (pushSeg fonts c r w.b (w.b + 3) w)
  else if isByte 9 c.p.text w.b then some (pushSeg fonts c r w.b (w.b + 1) w)
  else some (pushSeg fonts c r w.b (scan (fun i => isByte 9 c.p.text i || c.p.imageAt F i) w.b (segEnd - w.b)) w)

def justifiedBody (c : Drawing F) (r : PWRun) (segEnd : Nat) (w : Walk F) : Option (Walk F) :=
  if c.p.imageAt F w.b then some (pushSeg fonts c r w.b (w.b + 3) w)
  else
    let word := scan (fun i => isByte 32 c.p.text i || c.p.imageAt F i) w.b (segEnd - w.b)
    let w := if w.b < word then pushSeg fonts c r w.b word w else w
    if word < segEnd then some (pushSeg fonts c r word (scan (fun i => !isByte 32 c.p.text i) word (segEnd - word)) w)
    else some { w with b := word }

def segmentsBody (fuel : Nat) (c : Drawing F) (w : Walk F) : Option (Walk F) :=
  (firstRunAt c.p.runs w.b).bind fun r =>
    let segEnd : Int := min r.rEnd c.stop
    let segEnd := if segEnd ≤ w.b then w.b + 1 else segEnd.toNat
    Loops.whileDo (fun w => decide (w.b < segEnd)) ((if c.justify then justifiedBody else plainBody) fonts c r segEnd) fuel w

def fillLine (fuel : Nat) (setup : PWPageSetup F) (ps : List Para) (l : Line F) : Option (List (Segment F)) :=
  let p := paraAt ps l.para
  let justify := lineIsJustified ps l
  let c : Drawing F :=
    ⟨p, l, justify, if justify then slackPerGap setup ps l else 0, setup.marginLeft + pt p.format.indentLeft⟩
  (Loops.whileDo (fun w => decide (w.b < c.stop)) (segmentsBody fonts fuel c) fuel ⟨l.startPara, l.x, []⟩).map Walk.out

/-- A turn of the loop over a line of a table cell; the walk never stalls. -/
def cellStep (fuel : Nat) (p : Para) (cellX baseline : F) (start stop : Nat) :
    Nat × List (Segment F) → Option ((Nat × List (Segment F)) ⊕ List (Segment F))
  | (b, out) =>
    if b < stop then
      (firstRunAt p.runs b).bind fun r =>
        (measureWithRuns fonts fuel p.runs p.text start b).map fun w =>
          let next := utf8Next p.text b p.text.length
          let s : Segment F :=
            { isImage := p.imageAt F b, imageW := (p.imageSizeAt b).1, imageH := (p.imageSizeAt b).2, run := r, startPara := b
              length := next - b, x := cellX + w, baseline := baseline }
          if next ≤ b then .inr (out ++ [s]) else .inl (next, out ++ [s])
    else some (.inr out)

def fillCell (fuel : Nat) (p : Para) (top : F) (cell : CellLayout F) : Option (List (Segment F)) :=
  (cell.lines.foldlM (fun (s : List (Segment F) × F) cl =>
    (Loops.loop (cellStep fonts fuel p cell.x (s.2 + cl.baseline) cl.startByte (min (cl.startByte + cl.length) p.text.length)) fuel
      (cl.startByte, s.1)).map fun out => (out, s.2 + cl.height)) ([], top)).map Prod.fst

def fillRow (fuel : Nat) (rows : SortedMap Nat (RowLayout F)) (p : Para) (l : Line F) : Option (List (Segment F)) :=
  match rows.get? p.id with
  | none => some []
  | some row => (row.cells.mapM (fillCell fonts fuel p l.y)).map List.flatten

/-- `FillSegments`. -/
def fillSegments (fuel : Nat) (L : PWLayout F) (ps : List Para) (lineIndex : Nat) : Option (List (Segment F)) :=
  (L.fLines[lineIndex]?).bind fun l =>
    if l.table then fillRow fonts fuel L.fRows (paraAt ps l.para) l else fillLine fonts fuel L.fSetup ps l

/-! ## Images and runs -/

theorem scan_spec (stops : Nat → Bool) : ∀ i n : Nat, i ≤ scan stops i n ∧ scan stops i n ≤ i + n ∧
    (∀ k, i ≤ k → k < scan stops i n → stops k = false) ∧ (scan stops i n < i + n → stops (scan stops i n) = true)
  | i, 0     => ⟨Nat.le_refl i, Nat.le_refl i, fun _ h1 h2 => absurd h1 (Nat.not_le.2 h2), fun h => absurd h (Nat.lt_irrefl i)⟩
  | i, n + 1 => by
    unfold scan
    by_cases h : stops i = true
    · rw [if_pos h]
      exact ⟨Nat.le_refl i, Nat.le_add_right i _, fun _ h1 h2 => absurd h1 (Nat.not_le.2 h2), fun _ => h⟩
    rw [if_neg h]
    obtain ⟨h1, h2, h3, h4⟩ := scan_spec stops (i + 1) n
    refine ⟨by omega, by omega, fun k hk hlt => ?_, fun hlt => h4 (by omega)⟩
    rcases Nat.eq_or_lt_of_le hk with rfl | hk
    · exact Bool.eq_false_iff.2 h
    · exact h3 k hk hlt

variable (F) in
/-- Every image that has a width stands at its marker, and the marker lies in one run. -/
def Para.ImagesMarked (p : Para) : Prop := ∀ b, p.imageAt F b = true →
  (p.text.drop b).take 3 = kObjectChar ∧ ∃ r ∈ p.runs, r.start ≤ b ∧ (b : Int) + 3 ≤ r.rEnd

section
omit [DecidableLE F]
variable {p : Para}

theorem Para.ImagesMarked.bytes (h : p.ImagesMarked F) {b : Nat} (hb : p.imageAt F b = true) :
    p.text[b]? = some ⟨239, by decide⟩ ∧ p.text[b + 1]? = some ⟨191, by decide⟩ ∧ p.text[b + 2]? = some ⟨188, by decide⟩ := by
  have hmark := (h b hb).1
  have hat : ∀ i, i < 3 → p.text[b + i]? = kObjectChar[i]? := fun i hi => by
    rw [← hmark, getElem?_take, if_pos hi, getElem?_drop]
  exact ⟨hat 0 (by omega), hat 1 (by omega), hat 2 (by omega)⟩

theorem Para.ImagesMarked.within (h : p.ImagesMarked F) {b : Nat} (hb : p.imageAt F b = true) : b + 3 ≤ p.text.length := by
  have := (List.getElem?_eq_some_iff.1 (h.bytes hb).2.2).1
  omega

theorem Para.ImagesMarked.apart (h : p.ImagesMarked F) {b k : Nat} (hb : p.imageAt F b = true) (hk : p.imageAt F k = true) (hlt : b < k) :
    b + 3 ≤ k := by
  by_contra hnot
  obtain ⟨-, h1, h2⟩ := h.bytes hb
  have h0 := (h.bytes hk).1
  obtain rfl | rfl : k = b + 1 ∨ k = b + 2 := by omega
  · rw [h1] at h0
    exact absurd (Option.some.inj h0) (by decide)
  · rw [h2] at h0
    exact absurd (Option.some.inj h0) (by decide)

theorem Para.ImagesMarked.not_byte (h : p.ImagesMarked F) {b : Nat} {c : UInt8} (hc : c ≠ 239) (hb : isByte c p.text b = true) :
    p.imageAt F b = false := by
  rw [Bool.eq_false_iff]
  intro himage
  obtain ⟨x, hx, hxc⟩ := isByte_iff.1 hb
  rw [(h.bytes himage).1] at hx
  rw [← Option.some.inj hx] at hxc
  exact hc hxc.symm

end

theorem covers_iff {r : PWRun} {b : Nat} : r.covers b = true ↔ r.start ≤ b ∧ (b : Int) < r.rEnd := decide_eq_true_iff

theorem Tiles.same_end {r r' : PWRun} {b : Nat} (hb : r.covers b = true) (hb' : r'.covers b = true) :
    ∀ {a n : Int} {rs : List PWRun}, Tiles a rs n → r ∈ rs → r' ∈ rs → r'.rEnd = r.rEnd
  | _, _, [], _, hr, _ => absurd hr not_mem_nil
  | a, n, x :: rs, ⟨hs, hl, h⟩, hr, hr' => by
    have h1 := (covers_iff.1 hb).2
    have h2 := (covers_iff.1 hb').2
    rcases mem_cons.1 hr with rfl | hrs
    · rcases mem_cons.1 hr' with rfl | hrs'
      · rfl
      · have := (h.mem r' hrs').1
        have := (covers_iff.1 hb').1
        omega
    rcases mem_cons.1 hr' with rfl | hrs'
    · have := (h.mem r hrs).1
      have := (covers_iff.1 hb).1
      omega
    · exact h.same_end hb hb' hrs hrs'

theorem Para.Tiled.firstRunAt {p : Para} (h : p.Tiled) {b : Nat} (hb : b < p.text.length) :
    ∃ r ∈ p.runs, firstRunAt p.runs b = some r ∧ r.covers b = true := by
  obtain ⟨q, hq, h1, h2⟩ := Tiles.exists_run h (b : Int) (by omega) (by omega)
  unfold Writer.firstRunAt
  cases hfind : p.runs.find? (·.covers b) with
  | none => exact absurd (covers_iff.2 ⟨h1, h2⟩) (find?_eq_none.1 hfind q hq)
  | some r =>
    have hcovers := find?_some hfind
    exact ⟨r, mem_of_find?_eq_some hfind, rfl, hcovers⟩

/-! ## What the pieces should be -/

def Consecutive : Nat → List (Segment F) → Nat → Prop
  | a, [], b      => a = b
  | a, s :: ss, b => s.startPara = a ∧ Consecutive (a + s.length) ss b

def SegmentOk (p : Para) (s : Segment F) : Prop :=
  if s.isImage then p.imageAt F s.startPara = true ∧ s.length = 3
  else s.run ∈ p.runs ∧ s.run.start ≤ s.startPara ∧ (s.startPara : Int) + s.length ≤ s.run.rEnd

structure CoversLine (p : Para) (l : Line F) (ss : List (Segment F)) : Prop where
  consecutive : Consecutive l.startPara ss (l.startPara + l.length)
  ok : ∀ s ∈ ss, SegmentOk p s

/-- An image in a line right behind a byte of its own run that is no blank and no image. -/
structure BehindLetter (p : Para) (l : Line F) (w : Nat) : Prop where
  image : p.imageAt F w = true
  inLine : l.startPara < w ∧ w < l.startPara + l.length
  letter : isByte 32 p.text (w - 1) = false
  run : ∃ r ∈ p.runs, r.covers (w - 1) = true ∧ r.covers w = true
  noImage : ¬(l.startPara + 3 ≤ w ∧ p.imageAt F (w - 3) = true)

omit [Points F] [DecidableLE F] [DecidableLT F] in
theorem Consecutive.snoc : ∀ {ss : List (Segment F)} {a m b : Nat} {s : Segment F}, Consecutive a ss m → s.startPara = m → m + s.length = b →
    Consecutive a (ss ++ [s]) b
  | [], a, m, b, s, h, hs, hb => by
    have h : a = m := h
    subst h
    exact ⟨hs, hb⟩
  | t :: ss, a, m, b, s, ⟨ht, h⟩, hs, hb => ⟨ht, h.snoc hs hb⟩

theorem pushSeg_spec (c : Drawing F) (r : PWRun) (a b : Nat) (w : Walk F) : (pushSeg fonts c r a b w).b = b ∧
    ∃ s, (pushSeg fonts c r a b w).out = w.out ++ [s] ∧ s.startPara = a ∧ s.length = b - a ∧ s.run = r ∧ s.isImage = c.p.imageAt F a := by
  unfold pushSeg Para.imageAt
  dsimp only
  split
  · rename_i h
    exact ⟨rfl, _, rfl, rfl, rfl, rfl, (decide_eq_true h).symm⟩
  rename_i h
  split
  · exact ⟨rfl, _, rfl, rfl, rfl, rfl, (decide_eq_false h).symm⟩
  · exact ⟨rfl, _, rfl, rfl, rfl, rfl, (decide_eq_false h).symm⟩

/-! ## The walk over a line -/

/-- The walk stands at `w.b`, with no image cut, and one of its pieces is wrong exactly if an image in front of place `n` is behind a
letter. -/
structure Walked (c : Drawing F) (n : Nat) (w : Walk F) : Prop where
  started : c.line.startPara ≤ w.b
  upTo : w.b ≤ c.stop
  consecutive : Consecutive c.line.startPara w.out w.b
  whole : ∀ k, c.line.startPara ≤ k → c.p.imageAt F k = true → k < w.b → k + 3 ≤ w.b
  ok : (∀ s ∈ w.out, SegmentOk c.p s) ↔ (c.justify = true → ∀ k, k < n → ¬BehindLetter c.p c.line k)

structure Drawable (c : Drawing F) : Prop where
  tiled : c.p.Tiled
  images : c.p.ImagesMarked F
  stop : c.stop ≤ c.p.text.length
  whole : ∀ k, c.p.imageAt F k = true → k < c.stop → k + 3 ≤ c.stop

/-- A stretch of a run in a line, from `lo` on. -/
structure InRun (c : Drawing F) (r : PWRun) (lo segEnd : Nat) : Prop where
  mem : r ∈ c.p.runs
  start : r.start ≤ lo
  within : (segEnd : Int) ≤ r.rEnd
  stop : segEnd ≤ c.stop
  ends : segEnd = c.stop ∨ (segEnd : Int) = r.rEnd

section
omit [DecidableLE F]
variable {c : Drawing F} {n : Nat} {w : Walk F} {r : PWRun} {lo segEnd : Nat}

theorem Walked.flags {m : Nat} (hw : Walked c n w) (hsame : c.justify = true → ∀ k, (k < n ↔ k < m) ∨ ¬BehindLetter c.p c.line k) :
    Walked c m w := by
  refine ⟨hw.started, hw.upTo, hw.consecutive, hw.whole, hw.ok.trans (forall_congr' fun hj => ?_)⟩
  constructor
  · intro h k hk hflaw
    exact (hsame hj k).elim (fun hkn => h k (hkn.2 hk) hflaw) (fun hno => hno hflaw)
  · intro h k hk hflaw
    exact (hsame hj k).elim (fun hkn => h k (hkn.1 hk) hflaw) (fun hno => hno hflaw)

theorem InRun.image (hc : Drawable c) (hr : InRun c r lo segEnd) {b : Nat} (hlo : lo ≤ b) (hlt : b < segEnd) (himage : c.p.imageAt F b = true) :
    b + 3 ≤ segEnd := by
  obtain ⟨-, q, hq, h1, h2⟩ := hc.images b himage
  have hwhole := hc.whole b himage (Nat.lt_of_lt_of_le hlt hr.stop)
  have hstart := hr.start
  have hwithin := hr.within
  have hcovers : r.covers b = true := covers_iff.2 ⟨by omega, by omega⟩
  have hsame := hc.tiled.same_end hcovers (covers_iff.2 ⟨h1, by omega⟩) hr.mem hq
  rcases hr.ends with h | h
  · omega
  · omega

theorem InRun.ended (hc : Drawable c) (hr : InRun c r lo segEnd) (hlt : lo < segEnd) : ¬BehindLetter c.p c.line segEnd := by
  intro h
  obtain ⟨q, hq, hbefore, hhere⟩ := h.run
  have hin := h.inLine.2
  have hstart := hr.start
  rcases hr.ends with hend | hend
  · rw [hend] at hin
    exact absurd hin (Nat.lt_irrefl _)
  have hcovers : r.covers (segEnd - 1) = true := covers_iff.2 ⟨by omega, by omega⟩
  have hsame := hc.tiled.same_end hcovers hbefore hr.mem hq
  have := (covers_iff.1 hhere).2
  omega

end

section
variable {c : Drawing F} {n : Nat} {w : Walk F} {r : PWRun} {lo segEnd : Nat}

theorem Walked.push (hw : Walked c n w) (hr : InRun c r lo segEnd) (hlo : lo ≤ w.b) {b : Nat} (hle : w.b ≤ b) (hend : b ≤ segEnd)
    (himage : c.p.imageAt F w.b = true → b = w.b + 3) (hwhole : ∀ k, w.b ≤ k → k < b → c.p.imageAt F k = true → k + 3 ≤ b) :
    Walked c n (pushSeg fonts c r w.b b w) := by
  obtain ⟨hb, s, hout, hstart, hlength, hrun, hisImage⟩ := pushSeg_spec fonts c r w.b b w
  have hok : SegmentOk c.p s := by
    unfold SegmentOk
    rw [hisImage, hrun, hstart, hlength]
    by_cases h : c.p.imageAt F w.b = true
    · rw [if_pos h]
      exact ⟨h, by rw [himage h]; omega⟩
    rw [if_neg h]
    have := hr.start
    have := hr.within
    exact ⟨hr.mem, by omega, by omega⟩
  refine ⟨?_, ?_, ?_, fun k hk hik hkb => ?_, ?_⟩
  · rw [hb]
    exact Nat.le_trans hw.started hle
  · rw [hb]
    exact Nat.le_trans hend hr.stop
  · rw [hb, hout]
    exact hw.consecutive.snoc hstart (by rw [hlength]; omega)
  · rw [hb] at hkb ⊢
    rcases Nat.lt_or_ge k w.b with hkw | hkw
    · exact Nat.le_trans (hw.whole k hk hik hkw) hle
    · exact hwhole k hkw hkb hik
  · rw [hout, ← hw.ok]
    simp only [mem_append, mem_singleton, or_imp, forall_and, forall_eq]
    exact and_iff_left hok

theorem Walked.pushGap (hw : Walked c w.b w) (hflaw : BehindLetter c.p c.line w.b) (hj : c.justify = true) :
    Walked c (w.b + 1) (pushSeg fonts c r w.b w.b w) := by
  obtain ⟨hb, s, hout, hstart, hlength, hrun, hisImage⟩ := pushSeg_spec fonts c r w.b w.b w
  have hwrong : ¬SegmentOk c.p s := by
    unfold SegmentOk
    rw [hisImage, if_pos hflaw.image, hlength, Nat.sub_self]
    exact fun h => absurd h.2 (by decide)
  refine ⟨?_, ?_, ?_, ?_, ?_⟩
  · rw [hb]
    exact hw.started
  · rw [hb]
    exact hw.upTo
  · rw [hb, hout]
    exact hw.consecutive.snoc hstart (by rw [hlength, Nat.sub_self, Nat.add_zero])
  · rw [hb]
    exact hw.whole
  · refine iff_of_false (fun h => hwrong (h s ?_)) (fun h => h hj w.b (Nat.lt_succ_self _) hflaw)
    rw [hout]
    exact mem_append_right _ (mem_singleton_self s)

theorem Walked.pushImage (hc : Drawable c) (hw : Walked c n w) (hr : InRun c r lo segEnd) (hlo : lo ≤ w.b) (hlt : w.b < segEnd)
    (himage : c.p.imageAt F w.b = true) : Walked c n (pushSeg fonts c r w.b (w.b + 3) w) := by
  refine hw.push fonts hr hlo (Nat.le_add_right _ _) (hr.image hc hlo hlt himage) (fun _ => rfl) fun k hk hlt' hik => ?_
  rcases Nat.eq_or_lt_of_le hk with rfl | hk
  · exact Nat.le_refl _
  · have := hc.images.apart himage hik hk
    omega

theorem Walked.pushBytes (hw : Walked c n w) (hr : InRun c r lo segEnd) (hlo : lo ≤ w.b) {b : Nat} (hlt : w.b < b) (hend : b ≤ segEnd)
    (hno : ∀ k, w.b ≤ k → k < b → c.p.imageAt F k = false) : Walked c n (pushSeg fonts c r w.b b w) :=
  hw.push fonts hr hlo (Nat.le_of_lt hlt) hend
    (fun himage => absurd himage (Bool.eq_false_iff.1 (hno w.b (Nat.le_refl _) hlt)))
    (fun k hk hkb hik => absurd hik (Bool.eq_false_iff.1 (hno k hk hkb)))

theorem plain_step (hc : Drawable c) (hr : InRun c r lo segEnd) (hj : c.justify = false) (hw : Walked c (w.b + 1) w) (hlo : lo ≤ w.b)
    (hlt : w.b < segEnd) : ∃ t, plainBody fonts c r segEnd w = some t ∧ Walked c (t.b + 1) t ∧ w.b < t.b ∧ t.b ≤ segEnd := by
  have hflags : ∀ {m : Nat} {t : Walk F}, Walked c (w.b + 1) t → Walked c m t := fun ht =>
    ht.flags fun hj' => absurd hj' (Bool.eq_false_iff.1 hj)
  unfold plainBody
  by_cases himage : c.p.imageAt F w.b = true
  · rw [if_pos himage]
    refine ⟨_, rfl, hflags (hw.pushImage fonts hc hr hlo hlt himage), ?_, ?_⟩
    · rw [(pushSeg_spec fonts c r _ _ w).1]
      omega
    · rw [(pushSeg_spec fonts c r _ _ w).1]
      exact hr.image hc hlo hlt himage
  · rw [if_neg himage]
    have himage := Bool.eq_false_iff.2 himage
    by_cases htab : isByte 9 c.p.text w.b = true
    · rw [if_pos htab]
      refine ⟨_, rfl, hflags (hw.pushBytes fonts hr hlo (Nat.lt_succ_self _) hlt fun k h1 h2 => ?_), ?_, ?_⟩
      · rwa [show k = w.b by omega]
      · rw [(pushSeg_spec fonts c r _ _ w).1]
        exact Nat.lt_succ_self _
      · rw [(pushSeg_spec fonts c r _ _ w).1]
        exact hlt
    · rw [if_neg htab]
      obtain ⟨h1, h2, h3, h4⟩ := scan_spec (fun i => isByte 9 c.p.text i || c.p.imageAt F i) w.b (segEnd - w.b)
      generalize scan (fun i => isByte 9 c.p.text i || c.p.imageAt F i) w.b (segEnd - w.b) = word at h1 h2 h3 h4 ⊢
      -- the word has a byte: where the walk stands is neither a tab nor an image
      have hword : w.b < word := by
        refine Nat.lt_of_le_of_ne h1 fun heq => ?_
        have := h4 (by omega)
        rw [← heq, himage, Bool.eq_false_iff.2 htab] at this
        cases this
      refine ⟨_, rfl, hflags (hw.pushBytes fonts hr hlo hword (by omega) fun k hk hkw => (Bool.or_eq_false_iff.1 (h3 k hk hkw)).2), ?_, ?_⟩
      · rwa [(pushSeg_spec fonts c r _ _ w).1]
      · rw [(pushSeg_spec fonts c r _ _ w).1]
        omega

/-- On a justified line the walk goes to the end of a word: nothing it passes is a blank or an image. -/
theorem justified_word (hr : InRun c r lo segEnd) (hw : Walked c (w.b + 1) w) (hlo : lo ≤ w.b) {word : Nat} (hle : w.b ≤ word)
    (hend : word ≤ segEnd) (hno : ∀ k, w.b ≤ k → k < word → c.p.imageAt F k = false) (himage : c.p.imageAt F w.b = false) :
    ∃ t, (if w.b < word then pushSeg fonts c r w.b word w else w) = t ∧ t.b = word ∧ Walked c word t := by
  refine ⟨_, rfl, ?_, ?_⟩
  · split
    · exact (pushSeg_spec fonts c r _ _ w).1
    · omega
  · split
    · rename_i hlt
      refine (hw.pushBytes fonts hr hlo hlt hend hno).flags fun _ k => ?_
      rcases Nat.lt_or_ge k (w.b + 1) with hk | hk
      · exact .inl ⟨fun _ => by omega, fun _ => hk⟩
      · rcases Nat.lt_or_ge k word with hkw | hkw
        · exact .inr fun h => absurd h.image (Bool.eq_false_iff.1 (hno k (by omega) hkw))
        · exact .inl ⟨fun _ => by omega, fun _ => by omega⟩
    · refine hw.flags fun _ k => ?_
      rcases Nat.eq_or_lt_of_le (show word ≤ w.b by omega) with heq | hlt
      · rcases eq_or_ne k w.b with rfl | hk
        · exact .inr fun h => absurd h.image (Bool.eq_false_iff.1 himage)
        · exact .inl ⟨fun _ => by omega, fun _ => by omega⟩
      · omega

theorem justified_step (hc : Drawable c) (hr : InRun c r lo segEnd) (hj : c.justify = true) (hw : Walked c (w.b + 1) w) (hlo : lo ≤ w.b)
    (hlt : w.b < segEnd) : ∃ t, justifiedBody fonts c r segEnd w = some t ∧ Walked c (t.b + 1) t ∧ w.b < t.b ∧ t.b ≤ segEnd := by
  unfold justifiedBody
  by_cases himage : c.p.imageAt F w.b = true
  · rw [if_pos himage]
    refine ⟨_, rfl, (hw.pushImage fonts hc hr hlo hlt himage).flags fun _ k => ?_, ?_, ?_⟩
    · rw [(pushSeg_spec fonts c r _ _ w).1]
      rcases Nat.lt_or_ge k (w.b + 1) with hk | hk
      · exact .inl ⟨fun _ => by omega, fun _ => hk⟩
      rcases Nat.lt_or_ge k (w.b + 3 + 1) with hk' | hk'
      · -- two bytes of the marker, and the place behind it
        refine .inr fun h => ?_
        have := hc.images.apart himage h.image (by omega)
        obtain rfl : k = w.b + 3 := by omega
        exact h.noImage ⟨Nat.add_le_add_right hw.started 3, himage⟩
      · exact .inl ⟨fun _ => by omega, fun _ => by omega⟩
    · rw [(pushSeg_spec fonts c r _ _ w).1]
      omega
    · rw [(pushSeg_spec fonts c r _ _ w).1]
      exact hr.image hc hlo hlt himage
  · rw [if_neg himage]
    have himage := Bool.eq_false_iff.2 himage
    obtain ⟨h1, h2, h3, h4⟩ := scan_spec (fun i => isByte 32 c.p.text i || c.p.imageAt F i) w.b (segEnd - w.b)
    dsimp only
    generalize scan (fun i => isByte 32 c.p.text i || c.p.imageAt F i) w.b (segEnd - w.b) = word at h1 h2 h3 h4 ⊢
    have hno : ∀ k, w.b ≤ k → k < word → c.p.imageAt F k = false := fun k hk hkw => (Bool.or_eq_false_iff.1 (h3 k hk hkw)).2
    have hletter : ∀ k, w.b ≤ k → k < word → isByte 32 c.p.text k = false := fun k hk hkw => (Bool.or_eq_false_iff.1 (h3 k hk hkw)).1
    obtain ⟨t, ht, htb, htw⟩ := justified_word fonts hr hw hlo h1 (by omega) hno himage
    rw [ht]
    by_cases hin : word < segEnd
    · rw [if_pos hin]
      obtain ⟨g1, g2, g3, g4⟩ := scan_spec (fun i => !isByte 32 c.p.text i) word (segEnd - word)
      generalize scan (fun i => !isByte 32 c.p.text i) word (segEnd - word) = sp at g1 g2 g3 g4 ⊢
      have hstops := h4 (by omega)
      subst htb
      refine ⟨_, rfl, ?_⟩
      rw [(pushSeg_spec fonts c r _ _ t).1]
      by_cases hspace : isByte 32 c.p.text t.b = true
      · -- a gap of blanks
        have hsp : t.b < sp := by
          refine Nat.lt_of_le_of_ne g1 fun heq => ?_
          have := g4 (by omega)
          rw [← heq, hspace] at this
          cases this
        have hblank : ∀ k, t.b ≤ k → k < sp → isByte 32 c.p.text k = true := fun k hk hks => by
          have := g3 k hk hks
          rwa [Bool.not_eq_false'] at this
        have hnoSp : ∀ k, t.b ≤ k → k < sp → c.p.imageAt F k = false := fun k hk hks =>
          hc.images.not_byte (by decide) (hblank k hk hks)
        refine ⟨(htw.pushBytes fonts hr (by omega) hsp (by omega) hnoSp).flags fun _ k => ?_, by omega, by omega⟩
        rcases Nat.lt_or_ge k t.b with hk | hk
        · exact .inl ⟨fun _ => by omega, fun _ => hk⟩
        rcases Nat.lt_trichotomy k sp with hks | rfl | hks
        · exact .inr fun h => absurd h.image (Bool.eq_false_iff.1 (hnoSp k hk hks))
        · refine .inr fun h => ?_
          have := h.letter
          rw [hblank (k - 1) (by omega) (by omega)] at this
          cases this
        · exact .inl ⟨fun _ => by omega, fun _ => by omega⟩
      · -- an image right behind the word
        have hspace := Bool.eq_false_iff.2 hspace
        have himg : c.p.imageAt F t.b = true := by
          rw [hspace, Bool.false_or] at hstops
          exact hstops
        have hlater : w.b < t.b := Nat.lt_of_le_of_ne h1 fun heq => by
          rw [← heq, himage] at himg
          cases himg
        have hsp : sp = t.b := by
          by_contra hne
          have := g3 t.b (Nat.le_refl _) (by omega)
          rw [hspace] at this
          cases this
        rw [hsp]
        have hflaw : BehindLetter c.p c.line t.b := by
          have hstart := hr.start
          have hwithin := hr.within
          have hstop := hr.stop
          refine ⟨himg, ⟨Nat.lt_of_le_of_lt hw.started hlater, Nat.lt_of_lt_of_le hin hstop⟩, hletter _ (by omega) (by omega),
            ⟨r, hr.mem, covers_iff.2 ⟨by omega, by omega⟩, covers_iff.2 ⟨by omega, by omega⟩⟩, fun ⟨hk, hik⟩ => ?_⟩
          -- an image up to here is one the walk has passed, or would have stopped at
          rcases Nat.lt_or_ge (t.b - 3) w.b with hbefore | hbehind
          · have := hw.whole (t.b - 3) (by omega) hik hbefore
            omega
          · rw [hno (t.b - 3) hbehind (by omega)] at hik
            cases hik
        exact ⟨htw.pushGap fonts hflaw hj, hlater, Nat.le_of_lt hin⟩
    · rw [if_neg hin]
      have hword : word = segEnd := by omega
      refine ⟨_, rfl, ?_, by dsimp only; omega, by dsimp only; omega⟩
      dsimp only
      have htw : Walked c (word + 1) t := htw.flags fun _ k => by
        rcases eq_or_ne k word with rfl | hk
        · rw [hword]
          exact .inr (hr.ended hc (by omega))
        · exact .inl ⟨fun _ => by omega, fun _ => by omega⟩
      rw [← htb] at htw ⊢
      exact htw

end

theorem inner_total {c : Drawing F} {r : PWRun} {segEnd fuel : Nat} {w : Walk F} (hc : Drawable c) (hr : InRun c r w.b segEnd)
    (hw : Walked c (w.b + 1) w) (hle : w.b ≤ segEnd) (hfuel : segEnd - w.b < fuel) :
    ∃ t, Loops.whileDo (fun w => decide (w.b < segEnd)) ((if c.justify then justifiedBody else plainBody) fonts c r segEnd) fuel w = some t ∧
      Walked c (t.b + 1) t ∧ t.b = segEnd := by
  obtain ⟨t, ht, ⟨htw, htlo, hte⟩, htest⟩ := Loops.whileDo_total
    (fun t : Walk F => Walked c (t.b + 1) t ∧ w.b ≤ t.b ∧ t.b ≤ segEnd) (fun t => segEnd - t.b)
    (fun t ⟨htw, htlo, _⟩ htest => by
      have hlt : t.b < segEnd := of_decide_eq_true htest
      have hstep : ∃ u, (if c.justify then justifiedBody else plainBody) fonts c r segEnd t = some u ∧ Walked c (u.b + 1) u ∧
          t.b < u.b ∧ u.b ≤ segEnd := by
        cases hj : c.justify with
        | true => exact justified_step fonts hc hr hj htw htlo hlt
        | false => exact plain_step fonts hc hr hj htw htlo hlt
      obtain ⟨u, hu, huw, hub, hue⟩ := hstep
      exact ⟨u, hu, ⟨huw, by omega, hue⟩, by omega⟩)
    hfuel ⟨hw, Nat.le_refl _, hle⟩
  exact ⟨t, ht, htw, by have := of_decide_eq_false htest; omega⟩

theorem outer_step {c : Drawing F} {fuel : Nat} {w : Walk F} (hc : Drawable c) (hfuel : c.stop < fuel) (hw : Walked c (w.b + 1) w)
    (hlt : w.b < c.stop) : ∃ t, segmentsBody fonts fuel c w = some t ∧ Walked c (t.b + 1) t ∧ c.stop - t.b < c.stop - w.b := by
  obtain ⟨r, hrmem, hr, hcovers⟩ := hc.tiled.firstRunAt (Nat.lt_of_lt_of_le hlt hc.stop)
  have hcovers := covers_iff.1 hcovers
  obtain ⟨segEnd, hseg⟩ : ∃ segEnd : Nat, min r.rEnd (c.stop : Int) = segEnd := ⟨(min r.rEnd (c.stop : Int)).toNat, by omega⟩
  have hrun : InRun c r w.b segEnd := ⟨hrmem, hcovers.1, by omega, by omega, by omega⟩
  obtain ⟨t, ht, htw, htb⟩ := inner_total fonts hc hrun hw (by omega) (show segEnd - w.b < fuel by omega)
  refine ⟨t, ?_, htw, by omega⟩
  unfold segmentsBody
  rw [hr, Option.bind_some]
  dsimp only
  rw [hseg, if_neg (by omega), Int.toNat_natCast]
  exact ht

theorem segments_total {c : Drawing F} (hc : Drawable c) {fuel : Nat} (hfuel : c.stop < fuel) (x : F) :
    ∃ t, Loops.whileDo (fun w => decide (w.b < c.stop)) (segmentsBody fonts fuel c) fuel ⟨c.line.startPara, x, []⟩ = some t ∧
      Walked c (t.b + 1) t ∧ t.b = c.stop := by
  have hstart : Walked c (c.line.startPara + 1) ⟨c.line.startPara, x, []⟩ := by
    refine ⟨Nat.le_refl _, Nat.le_add_right _ _, rfl, fun k hk _ hlt => absurd hk (Nat.not_le.2 hlt), ?_⟩
    refine iff_of_true (fun s hs => absurd hs not_mem_nil) fun _ k hk h => ?_
    have := h.inLine.1
    omega
  obtain ⟨t, ht, htw, htest⟩ := Loops.whileDo_total (fun t : Walk F => Walked c (t.b + 1) t) (fun t => c.stop - t.b)
    (s := ⟨c.line.startPara, x, []⟩) (fun t htw htest => outer_step fonts hc hfuel htw (of_decide_eq_true htest))
    (show c.stop - c.line.startPara < fuel by omega) hstart
  exact ⟨t, ht, htw, by have := of_decide_eq_false htest; have := htw.upTo; omega⟩

/-! ## Lines of a layout -/

omit [DecidableLE F] in
theorem drawable_of_fits {p : Para} {l : Line F} (hfits : Fits p l) (hrow : p.isRow = false) (htiled : p.Tiled) (htext : IsText p.text)
    (himages : p.ImagesMarked F) (justify : Bool) (slack edge : F) : Drawable ⟨p, l, justify, slack, edge⟩ where
  tiled := htiled
  images := himages
  stop := hfits.within
  whole k hik hk := by
    show k + 3 ≤ l.startPara + l.length
    have hk : k < l.startPara + l.length := hk
    by_contra hnot
    obtain ⟨-, h1, h2⟩ := himages.bytes hik
    have hwithin := himages.within hik
    -- the line would end in front of a byte in the middle of the marker
    have hcont : ∃ b, p.text[l.startPara + l.length]? = some b ∧ (b = ⟨191, by decide⟩ ∨ b = ⟨188, by decide⟩) := by
      obtain heq | heq : l.startPara + l.length = k + 1 ∨ l.startPara + l.length = k + 2 := by omega
      · rw [heq]
        exact ⟨_, h1, .inl rfl⟩
      · rw [heq]
        exact ⟨_, h2, .inr rfl⟩
    obtain ⟨b, hb, hcont⟩ := hcont
    rcases hfits.ends hrow (Boundary p.text) (fun i hi hB => (hB.next hi).1) (Boundary.zero htext) with hB | hbreak
    · have hne : p.text.drop (l.startPara + l.length) ≠ [] := fun hnil => by
        have := drop_eq_nil_iff.1 hnil
        omega
      obtain ⟨x, cs, hdrop, -, -, -, -, hlead, -⟩ := hB.behind.first hne
      rw [← head?_drop, hdrop, head?_cons] at hb
      rw [Option.some.inj hb] at hlead
      rcases hcont with rfl | rfl
      · revert hlead
        decide
      · revert hlead
        decide
    · unfold breakAt at hbreak
      rw [hb] at hbreak
      rcases hcont with rfl | rfl
      · revert hbreak
        decide
      · revert hbreak
        decide

omit [DecidableLE F] in
theorem mem_rows : ∀ (k : Nat) (bs : List (List Nat)), ∀ x ∈ rows k bs, x.1 < k + bs.length
  | _, [], x, hx => absurd hx not_mem_nil
  | k, b :: bs, x, hx => by
    rw [length_cons]
    rcases mem_append.1 hx with hx | hx
    · obtain ⟨s, -, rfl⟩ := mem_map.1 hx
      dsimp only
      omega
    · have := mem_rows (k + 1) bs x hx
      omega

theorem LaidOut.segments {ps : List Para} (htiled : Tiled ps) (htext : ∀ p ∈ ps, IsText p.text) (himages : ∀ p ∈ ps, p.ImagesMarked F)
    {L : PWLayout F} (h : LaidOut ps L) {i : Nat} {l : Line F} (hi : L.fLines[i]? = some l) (htable : l.table = false) {fuel : Nat}
    (hfuel : l.startPara + l.length < fuel) : ∃ ss, fillSegments fonts fuel L ps i = some ss ∧
      (CoversLine (paraAt ps l.para) l ss ↔ (lineIsJustified ps l = true → ∀ w, ¬BehindLetter (paraAt ps l.para) l w)) := by
  have hmem := mem_of_getElem? hi
  obtain ⟨bs, hlength, -, hrows⟩ := h.rows
  have hlt : l.para < ps.length := by
    have := mem_rows 0 bs (l.para, l.startPara) (by rw [← hrows]; exact mem_map_of_mem hmem)
    dsimp only at this
    omega
  have hpmem : paraAt ps l.para ∈ ps := by
    rw [paraAt_of_getElem? (getElem?_eq_getElem hlt)]
    exact getElem_mem hlt
  have hfits := h.fits l hmem
  have hc := drawable_of_fits hfits (hfits.table.symm.trans htable) (htiled _ hpmem) (htext _ hpmem) (himages _ hpmem)
    (lineIsJustified ps l) (if lineIsJustified ps l then slackPerGap L.fSetup ps l else 0)
    (L.fSetup.marginLeft + pt (paraAt ps l.para).format.indentLeft)
  obtain ⟨t, ht, htw, htb⟩ := segments_total fonts hc hfuel l.x
  have htb : t.b = l.startPara + l.length := htb
  refine ⟨t.out, ?_, fun hcover hj w hw => ?_, fun hno => ⟨?_, htw.ok.2 fun hj k _ => hno hj k⟩⟩
  · unfold fillSegments
    rw [hi, Option.bind_some, htable, if_neg Bool.false_ne_true]
    unfold fillLine
    dsimp only
    rw [ht, Option.map_some]
  · refine htw.ok.1 hcover.ok hj w ?_ hw
    have := hw.inLine.2
    omega
  · rw [← htb]
    exact htw.consecutive

/-- **The pieces of a line.**  Every line of a layout that is no table row falls into pieces, and they are the line's bytes, an image's or of
one run each, exactly if the line is not justified or no image in it stands right behind a letter of its run. -/
theorem segments_cover (bitmapOf : BitmapOf) {v : View F} (h : v.Reachable fonts bitmapOf) {d : PWDocument} (hd : v.doc = some d)
    (htiled : Tiled d.fParas) (htext : ∀ p ∈ d.fParas, IsText p.text) (himages : ∀ p ∈ d.fParas, p.ImagesMarked F)
    {fuel : Nat} {L : PWLayout F} (hl : layout fonts fuel v.layout (some d.fParas) = some L) {i : Nat} {l : Line F}
    (hi : L.fLines[i]? = some l) (htable : l.table = false) :
    ∃ n, ∀ fuel, n ≤ fuel → ∃ ss, fillSegments fonts fuel L d.fParas i = some ss ∧
      (CoversLine (paraAt d.fParas l.para) l ss ↔
        (lineIsJustified d.fParas l = true → ∀ w, ¬BehindLetter (paraAt d.fParas l.para) l w)) :=
  ⟨l.startPara + l.length + 1, fun _ hfuel =>
    (layout_of fonts ((h.ready fonts).reusable hd) hl).segments fonts htiled htext himages hi htable (Nat.lt_of_succ_le hfuel)⟩

/-- `a` with an image behind it, so wide that `b` goes to the next line, justified. -/
def wideImage : List Call :=
  [.edit (.insert 0 [byteA, byteSpace, byteB] none), .edit (.insertImage 1 (some ⟨1, 1, [0, 0, 0, 255]⟩) 448 10),
    .edit (.setParaFormat 0 { alignment := .justify })]

def widePara : Para :=
  { runs := [⟨0, 6, makeDefaultFormat noFamily⟩]
    text := [byteA] ++ kObjectChar ++ [byteSpace, byteB]
    format := { alignment := .justify }
    images := SortedMap.empty.set 1 ⟨some ⟨1, 1, [0, 0, 0, 255]⟩, 448, 10⟩
    id := 1
    revision := 4 }

theorem wideImage_made : (callAll (PWDocument.new noFamily) wideImage).map (·.fParas) = some [widePara] := by decide

theorem widePara_marked : widePara.ImagesMarked ℚ := by
  intro b hb
  have hone : b = 1 := by
    by_contra hne
    have hnone : widePara.images.get? (b : Int) = none := by
      have : (b : Int) ≠ 1 := by omega
      show (SortedMap.empty.set (1 : Int) _).get? (b : Int) = none
      rw [SortedMap.get?_set, if_neg this]
      rfl
    unfold Para.imageAt Para.imageSizeAt at hb
    rw [hnone] at hb
    exact absurd (of_decide_eq_true hb) (lt_irrefl 0)
  subst hone
  exact ⟨by decide, _, mem_singleton_self _, by decide, by decide⟩

theorem widePara_line : ((layout evenFonts 20 { fSetup := plainSetup } (some [widePara])).bind fun L =>
    L.fLines[0]?.map fun l => (l.para, l.startPara, l.length, l.last, l.table)) = some (0, 0, 4, false, false) := by decide +kernel

structure WideLaidOut (d : PWDocument) (L : PWLayout ℚ) (l : Line ℚ) : Prop where
  made : Reachable noFamily d
  paras : d.fParas = [widePara]
  laid : layout evenFonts 20 { fSetup := plainSetup } (some d.fParas) = some L
  line : L.fLines[0]? = some l
  place : (l.para, l.startPara, l.length, l.last, l.table) = (0, 0, 4, false, false)

theorem wide_laidOut : ∃ d L l, WideLaidOut d L l := by
  obtain ⟨d, hd, hparas⟩ := Option.map_eq_some_iff.1 wideImage_made
  obtain ⟨L, hL, hline⟩ := Option.bind_eq_some_iff.1 widePara_line
  obtain ⟨l, hl, hplace⟩ := Option.map_eq_some_iff.1 hline
  exact ⟨d, L, l, Calls.of_callAll wideImage hd, hparas, by rw [hparas, hL], hl, hplace⟩

theorem WideLaidOut.text {d : PWDocument} {L : PWLayout ℚ} {l : Line ℚ} (h : WideLaidOut d L l) :
    (∀ p ∈ d.fParas, IsText p.text) ∧ ∀ p ∈ d.fParas, p.ImagesMarked ℚ := by
  rw [h.paras]
  refine ⟨fun p hp => ?_, fun p hp => ?_⟩
  · rw [mem_singleton.1 hp]
    exact ⟨['a', Char.ofNat 0xFFFC, ' ', 'b'], by decide⟩
  · rw [mem_singleton.1 hp]
    exact widePara_marked

theorem WideLaidOut.view {d : PWDocument} {L : PWLayout ℚ} {l : Line ℚ} (h : WideLaidOut d L l) :
    View.Reachable evenFonts (fun _ _ _ => none) ⟨some d, { fSetup := plainSetup }⟩ :=
  ⟨_, _, fun e he => by
    cases he
    exact h.made.document _, Relation.ReflTransGen.refl⟩

theorem segments_cover_wideImage : ∃ d L l, WideLaidOut d L l ∧ ∃ n, ∀ fuel, n ≤ fuel → ∃ ss,
    fillSegments evenFonts fuel L d.fParas 0 = some ss ∧ (CoversLine (paraAt d.fParas l.para) l ss ↔
      (lineIsJustified d.fParas l = true → ∀ w, ¬BehindLetter (paraAt d.fParas l.para) l w)) := by
  obtain ⟨d, L, l, h⟩ := wide_laidOut
  obtain ⟨htext, himages⟩ := h.text
  have htable : l.table = false := congrArg (fun x => x.2.2.2.2) h.place
  exact ⟨d, L, l, h, segments_cover evenFonts _ h.view rfl h.made.tiled htext himages h.laid h.line htable⟩

/-- The image of the first line is a piece of three bytes and one of none. -/
theorem image_twice : ¬ ∀ (v : View ℚ), v.Reachable evenFonts (fun _ _ _ => none) → ∀ d, v.doc = some d → Tiled d.fParas →
    (∀ p ∈ d.fParas, IsText p.text) → (∀ p ∈ d.fParas, p.ImagesMarked ℚ) → ∀ fuel L, layout evenFonts fuel v.layout (some d.fParas) = some L →
    ∀ i l, L.fLines[i]? = some l → l.table = false → ∃ n, ∀ fuel, n ≤ fuel → ∃ ss, fillSegments evenFonts fuel L d.fParas i = some ss ∧
      CoversLine (paraAt d.fParas l.para) l ss := by
  intro hall
  obtain ⟨d, L, l, h⟩ := wide_laidOut
  obtain ⟨htext, himages⟩ := h.text
  have hplace := h.place
  simp only [Prod.mk.injEq] at hplace
  obtain ⟨hpara, hstart, hlength, hlast, htable⟩ := hplace
  obtain ⟨n, hn⟩ := hall _ h.view d rfl h.made.tiled htext himages 20 L h.laid 0 l h.line htable
  obtain ⟨ss, hss, hcover⟩ := hn (n + (l.startPara + l.length + 1)) (by omega)
  have hlaid := layout_of evenFonts ((h.view.ready evenFonts).reusable rfl) h.laid
  obtain ⟨ss', hss', hiff⟩ := hlaid.segments evenFonts h.made.tiled htext himages h.line htable
    (show l.startPara + l.length < n + (l.startPara + l.length + 1) by omega)
  obtain rfl : ss = ss' := Option.some.inj (hss.symm.trans hss')
  have hp : paraAt d.fParas l.para = widePara := by
    rw [hpara, h.paras]
    rfl
  refine hiff.1 hcover ?_ 1 ?_
  · unfold lineIsJustified
    rw [hp, hlast]
    rfl
  · rw [hp]
    refine ⟨by decide, by omega, by decide, ⟨_, mem_singleton_self _, by decide, by decide⟩, fun hno => ?_⟩
    omega

end Writer
end Prose
