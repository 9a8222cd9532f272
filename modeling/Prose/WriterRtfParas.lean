import Mathlib.Tactic.Linarith
import Prose.WriterRtfText
/-!
# WriterRtfParas — the paragraph formats read back

The writer leaves out a measure that is zero, and nothing in the file resets the reader between two paragraphs: what one
paragraph set is there for the next.  `readFormats_iff` says which formats come back through this.
-/
namespace Prose
namespace Writer

open List

/-! ## Measures -/

def readTwips (x : Rat) : Rat := (int32 (toInt (x * 20 + 1 / 2)) : Rat) / 20

def readSpacing (x : Rat) : Rat := (int32 (toInt (x * 240 + 1 / 2)) : Rat) / 240

/-- What the reader has of a measure `y` behind a paragraph that left it at `x`. -/
def carried (x y : Rat) : Rat := if y ≠ 0 then readTwips y else x

def carriedSpacing (x y : Rat) : Rat := if y ≠ 1 then readSpacing y else x

theorem int32_toInt (q : Rat) : int32 (toInt q) = toInt q := by
  refine int32_eq ?_ ?_
  · exact le_max_left _ _
  · unfold toInt
    omega

theorem toInt_half (k : Int) : toInt ((k : Rat) + 1 / 2) =
    max (-2147483648) (min 2147483647 (if k < 0 then k + 1 else k)) := by
  unfold toInt
  by_cases hk : k < 0
  · have hneg : (k : Rat) + 1 / 2 < 0 := by
      have : (k : Rat) ≤ -1 := by exact_mod_cast Int.le_sub_one_of_lt hk
      linarith
    have hfloor : ⌊-((k : Rat) + 1 / 2)⌋ = -(k + 1) := by
      rw [Int.floor_eq_iff]
      push_cast
      constructor <;> linarith
    rw [if_pos hneg, if_pos hk, hfloor, Int.neg_neg]
  · have hpos : ¬ (k : Rat) + 1 / 2 < 0 := by
      have : (0 : Rat) ≤ k := by exact_mod_cast Int.not_lt.1 hk
      linarith
    have hfloor : ⌊(k : Rat) + 1 / 2⌋ = k := by
      rw [Int.floor_eq_iff]
      constructor <;> linarith
    rw [if_neg hpos, if_neg hk, hfloor]

theorem toInt_half_eq_iff (k : Int) : toInt ((k : Rat) + 1 / 2) = k ↔ 0 ≤ k ∧ k < 2147483648 := by
  rw [toInt_half]
  split_ifs <;> omega

/-- The measures that `\li` and its like can carry. -/
def FitsTwips (x : Rat) : Prop := 0 ≤ x * 20 ∧ x * 20 < 2147483648

instance (x : Rat) : Decidable (FitsTwips x) := inferInstanceAs (Decidable (_ ∧ _))

theorem readTwips_eq_iff {x : Rat} (h : ∃ k : Int, x * 20 = k) : readTwips x = x ↔ FitsTwips x := by
  obtain ⟨k, hk⟩ := h
  have hx : x = (k : Rat) / 20 := by rw [← hk, mul_div_cancel_right₀ x (by norm_num)]
  unfold readTwips FitsTwips
  rw [int32_toInt, hk, hx, div_left_inj' (by norm_num), Int.cast_inj, toInt_half_eq_iff]
  exact and_congr (by exact_mod_cast Iff.rfl) (by exact_mod_cast Iff.rfl)

theorem readSpacing_eq_iff {x : Rat} (h : ∃ m : Int, 0 < m ∧ x * 240 = m) : readSpacing x = x ↔ x * 240 < 2147483648 := by
  obtain ⟨m, hm, hx⟩ := h
  have hx' : x = (m : Rat) / 240 := by rw [← hx, mul_div_cancel_right₀ x (by norm_num)]
  unfold readSpacing
  rw [int32_toInt, hx, hx', div_left_inj' (by norm_num), Int.cast_inj, toInt_half_eq_iff,
    and_iff_right (Int.le_of_lt hm)]
  exact_mod_cast Iff.rfl

/-- **A measure comes back** if it fits and there is one wherever the paragraph before left one. -/
theorem carried_eq_iff (x : Rat) {y : Rat} (h : ∃ k : Int, y * 20 = k) :
    carried x y = y ↔ FitsTwips y ∧ (x ≠ 0 → y ≠ 0) := by
  unfold carried
  by_cases hy : y = 0
  · have hfits : FitsTwips 0 := by
      unfold FitsTwips
      norm_num
    subst hy
    rw [if_neg (not_not.2 rfl), and_iff_right hfits]
    exact ⟨fun hx h => absurd hx h, fun h => not_not.1 (fun hx => h hx rfl)⟩
  · rw [if_pos hy, readTwips_eq_iff h, and_iff_left (fun _ => hy)]

theorem carriedSpacing_eq_iff (x : Rat) {y : Rat} (h : ∃ m : Int, 0 < m ∧ y * 240 = m) :
    carriedSpacing x y = y ↔ y * 240 < 2147483648 ∧ (x ≠ 1 → y ≠ 1) := by
  unfold carriedSpacing
  by_cases hy : y = 1
  · subst hy
    rw [if_neg (not_not.2 rfl), and_iff_right (by norm_num)]
    exact ⟨fun hx h => absurd hx h, fun h => not_not.1 (fun hx => h hx rfl)⟩
  · rw [if_pos hy, readSpacing_eq_iff h, and_iff_left (fun _ => hy)]

/-! ## The state behind the words of a paragraph format -/

def RtfState.act (s : RtfState) : Token → RtfState
  | .word w param => s.word w (param.map int32)
  | _ => s

theorem RtfReader.applyParaFormat_state (r : RtfReader) (para : Int) : (r.applyParaFormat para).fState = r.fState := by
  unfold RtfReader.applyParaFormat
  split_ifs <;> rfl

theorem RtfReader.act_state (r : RtfReader) (t : Token) : (r.act t).fState = r.fState.act t := by
  cases t with
  | byte c => rfl
  | word w p => rfl
  | par => exact RtfReader.applyParaFormat_state _ _

theorem RtfReader.foldl_act_state : ∀ (ts : List Token) (r : RtfReader),
    (ts.foldl RtfReader.act r).fState = ts.foldl RtfState.act r.fState
  | [], _ => rfl
  | t :: ts, r => by
    rw [foldl_cons, foldl_cons, RtfReader.foldl_act_state ts, RtfReader.act_state]

def readAlignment : PWAlignment → PWAlignment
  | .other _ => .left
  | a => a

/-- The state behind the words of `fmt`. -/
def RtfState.setPara (s : RtfState) (fmt : PWParaFormat) : RtfState :=
  { s with
    align := readAlignment fmt.alignment
    indentLeft := carried s.indentLeft fmt.indentLeft
    indentRight := carried s.indentRight fmt.indentRight
    indentFirst := carried s.indentFirst fmt.indentFirst
    lineSpacing := carriedSpacing s.lineSpacing fmt.lineSpacing
    spaceBefore := carried s.spaceBefore fmt.spaceBefore
    spaceAfter := carried s.spaceAfter fmt.spaceAfter
    tabs := s.tabs ++ fmt.tabs.map (fun tab => readTwips tab.x) }

/-- A word that is written for a measure `x` other than `z` sets what `g` reads of the state. -/
theorem foldl_measure {t : Token} {x z v : Rat} {g : RtfState → Rat} {u : RtfState → Rat → RtfState}
    (hact : ∀ s : RtfState, s.act t = u s v) (hset : ∀ s : RtfState, u s (g s) = s) (s : RtfState) :
    (if x ≠ z then [t] else []).foldl RtfState.act s = u s (if x ≠ z then v else g s) := by
  split_ifs
  · exact hact s
  · exact (hset s).symm

theorem foldl_tabs : ∀ (tabs : List PWTab) (s : RtfState),
    (tabs.map (fun tab => twipsToken "tx" tab.x)).foldl RtfState.act s =
      { s with tabs := s.tabs ++ tabs.map (fun tab => readTwips tab.x) }
  | [], s => by rw [map_nil, foldl_nil, map_nil, append_nil]
  | tab :: tabs, s => by
    have hact : s.act (twipsToken "tx" tab.x) = { s with tabs := s.tabs ++ [readTwips tab.x] } := rfl
    rw [map_cons, foldl_cons, hact, foldl_tabs tabs, map_cons]
    simp only [append_assoc, singleton_append]

theorem foldl_paraTokens (fmt : PWParaFormat) (s : RtfState) :
    (paraTokens fmt).foldl RtfState.act s = s.setPara fmt := by
  have halign (s : RtfState) : s.act (alignmentToken fmt.alignment) = { s with align := readAlignment fmt.alignment } := by
    cases fmt.alignment <;> rfl
  have hli := foldl_measure (t := twipsToken "li" fmt.indentLeft) (x := fmt.indentLeft) (z := 0)
    (g := RtfState.indentLeft) (u := fun s v => { s with indentLeft := v }) (fun s => rfl) (fun s => rfl)
  have hri := foldl_measure (t := twipsToken "ri" fmt.indentRight) (x := fmt.indentRight) (z := 0)
    (g := RtfState.indentRight) (u := fun s v => { s with indentRight := v }) (fun s => rfl) (fun s => rfl)
  have hfi := foldl_measure (t := twipsToken "fi" fmt.indentFirst) (x := fmt.indentFirst) (z := 0)
    (g := RtfState.indentFirst) (u := fun s v => { s with indentFirst := v }) (fun s => rfl) (fun s => rfl)
  have hsl := foldl_measure (t := word "sl" (some (toInt (fmt.lineSpacing * 240 + 1 / 2)))) (x := fmt.lineSpacing)
    (z := 1) (g := RtfState.lineSpacing) (u := fun s v => { s with lineSpacing := v }) (fun s => rfl)
    (fun s => rfl)
  have hsb := foldl_measure (t := twipsToken "sb" fmt.spaceBefore) (x := fmt.spaceBefore) (z := 0)
    (g := RtfState.spaceBefore) (u := fun s v => { s with spaceBefore := v }) (fun s => rfl) (fun s => rfl)
  have hsa := foldl_measure (t := twipsToken "sa" fmt.spaceAfter) (x := fmt.spaceAfter) (z := 0)
    (g := RtfState.spaceAfter) (u := fun s v => { s with spaceAfter := v }) (fun s => rfl) (fun s => rfl)
  unfold paraTokens
  rw [foldl_cons, halign, foldl_append, foldl_append, foldl_append, foldl_append,
    foldl_append, foldl_append, hli, hri, hfi, hsl, hsb, hsa, foldl_tabs]
  rfl

/-! ## The words of the runs -/

def RtfState.paraPart (s : RtfState) : RtfState :=
  { s with bold := false, italic := false, underline := false, size := 12, font := 0, color := 0 }

theorem RtfState.paraFormat_paraPart (s : RtfState) (fmt : PWParaFormat) : s.paraPart.paraFormat fmt = s.paraFormat fmt :=
  rfl

theorem RtfState.setPara_paraPart (s : RtfState) (fmt : PWParaFormat) :
    s.paraPart.setPara fmt = (s.setPara fmt).paraPart := rfl

def Token.Chars (t : Token) : Prop := ∀ s : RtfState, (s.act t).paraPart = s.paraPart

theorem paraPart_word (s : RtfState) {w : List Byte} (h : w ∈ ["f", "b", "i", "ul", "ulnone", "fs", "cf"].map chars)
    (param : Option Int) : (s.word w param).paraPart = s.paraPart := by
  simp only [map_cons, map_nil, mem_cons, not_mem_nil, or_false] at h
  rcases h with rfl | rfl | rfl | rfl | rfl | rfl | rfl <;> rfl

theorem chars_word {w : String} (h : chars w ∈ ["f", "b", "i", "ul", "ulnone", "fs", "cf"].map chars)
    (param : Option Int) : (word w param).Chars := fun s => paraPart_word s h (param.map int32)

theorem chars_charTokens (names : List FontFamily) (colors : List RgbColor) (prev f : PWCharFormat) :
    ∀ t ∈ charTokens names colors prev f, t.Chars := by
  intro t ht
  unfold charTokens at ht
  simp only [mem_append] at ht
  rcases ht with ((((h | h) | h) | h) | h) | h
  · exact mem_ite_singleton h ▸ chars_word (by decide) _
  · rw [mem_ite_singleton h]
    cases f.bold <;> exact chars_word (by decide) _
  · rw [mem_ite_singleton h]
    cases f.italic <;> exact chars_word (by decide) _
  · rw [mem_ite_singleton h]
    cases f.underline <;> exact chars_word (by decide) _
  · exact mem_ite_singleton h ▸ chars_word (by decide) _
  · split_ifs at h
    · exact absurd h not_mem_nil
    · exact mem_singleton.1 h ▸ chars_word (by decide) _

theorem chars_segmentTokens (d : PWDocument) : ∀ (prev : PWCharFormat) (segs : List (PWCharFormat × List Byte)),
    ∀ t ∈ segmentTokens d prev segs, t.Chars
  | _, [], t, ht => absurd ht not_mem_nil
  | prev, (f, piece) :: segs, t, ht => by
    rcases mem_append.1 ht with ht | ht
    · rcases mem_append.1 ht with ht | ht
      · exact chars_charTokens _ _ _ _ t ht
      · obtain ⟨c, -, rfl⟩ := mem_map.1 ht
        exact fun s => rfl
    · exact chars_segmentTokens d _ segs t ht

theorem foldl_chars : ∀ {ts : List Token} (s : RtfState), (∀ t ∈ ts, t.Chars) →
    (ts.foldl RtfState.act s).paraPart = s.paraPart
  | [], _, _ => rfl
  | t :: ts, s, h => by
    rw [foldl_cons, foldl_chars _ (fun t ht => h t (mem_cons_of_mem _ ht)), h t mem_cons_self]

/-- **The state behind a paragraph**, but for what its runs set. -/
theorem Para.foldl_tokens (d : PWDocument) (prev : PWCharFormat) (p : Para) (r : RtfReader) :
    ((p.tokens d prev).foldl RtfReader.act r).fState.paraPart = r.fState.paraPart.setPara p.format := by
  have hspace : ∀ t ∈ (if p.text = [] then [Token.byte (ascii ' ')] else []), t.Chars := by
    intro t ht
    rw [mem_ite_singleton ht]
    exact fun s => rfl
  rw [RtfReader.foldl_act_state, Para.tokens, foldl_append, foldl_append, foldl_chars _ hspace,
    foldl_chars _ (chars_segmentTokens d _ _), foldl_paraTokens, RtfState.setPara_paraPart]

/-- The formats the reader gives the paragraphs with formats `fmts`. -/
def readFormats : RtfState → List PWParaFormat → List PWParaFormat
  | _, []          => []
  | s, fmt :: fmts => (s.setPara fmt).paraFormat {} :: readFormats (s.setPara fmt) fmts

theorem readBack_formats (d : PWDocument) : ∀ (r : RtfReader) (prev : PWCharFormat) (ps : List Para),
    (r.readBack d prev ps).map (·.format) = readFormats r.fState.paraPart (ps.map (·.format))
  | _, _, [] => rfl
  | r, prev, p :: ps => by
    have hstate := p.foldl_tokens d prev r
    rw [RtfReader.readBack, map_cons, map_cons, readFormats, readBack_formats d _ _ ps, ← hstate,
      RtfState.paraFormat_paraPart]
    unfold RtfReader.endParagraph
    rw [RtfReader.applyParaFormat_state]

/-! ## Which formats come back -/

def PWParaFormat.kept (fmt : PWParaFormat) : PWParaFormat :=
  { fmt with listKind := .none, tabs := fmt.tabs.filter (·.kind = .left) }

/-- Every measure is a number of twips, and the line spacing a positive number of 240ths. -/
structure PWParaFormat.OnGrid (fmt : PWParaFormat) : Prop where
  indentLeft : ∃ k : Int, fmt.indentLeft * 20 = k
  indentRight : ∃ k : Int, fmt.indentRight * 20 = k
  indentFirst : ∃ k : Int, fmt.indentFirst * 20 = k
  spaceBefore : ∃ k : Int, fmt.spaceBefore * 20 = k
  spaceAfter : ∃ k : Int, fmt.spaceAfter * 20 = k
  lineSpacing : ∃ m : Int, 0 < m ∧ fmt.lineSpacing * 240 = m
  tabs : ∀ tab ∈ fmt.tabs, ∃ k : Int, tab.x * 20 = k

/-- Every part of the format is one the writer has a word for: no negative measure, none too large for an `int`, no tab
but a left one. -/
structure PWParaFormat.Fits (fmt : PWParaFormat) : Prop where
  alignment : readAlignment fmt.alignment = fmt.alignment
  indentLeft : FitsTwips fmt.indentLeft
  indentRight : FitsTwips fmt.indentRight
  indentFirst : FitsTwips fmt.indentFirst
  spaceBefore : FitsTwips fmt.spaceBefore
  spaceAfter : FitsTwips fmt.spaceAfter
  lineSpacing : fmt.lineSpacing * 240 < 2147483648
  tabs : ∀ tab ∈ fmt.tabs, tab.kind = .left ∧ FitsTwips tab.x

/-- A paragraph sets whatever the paragraph in front of it has set, which has no tabs. -/
structure Overrides (prev fmt : PWParaFormat) : Prop where
  indentLeft : prev.indentLeft ≠ 0 → fmt.indentLeft ≠ 0
  indentRight : prev.indentRight ≠ 0 → fmt.indentRight ≠ 0
  indentFirst : prev.indentFirst ≠ 0 → fmt.indentFirst ≠ 0
  spaceBefore : prev.spaceBefore ≠ 0 → fmt.spaceBefore ≠ 0
  spaceAfter : prev.spaceAfter ≠ 0 → fmt.spaceAfter ≠ 0
  lineSpacing : prev.lineSpacing ≠ 1 → fmt.lineSpacing ≠ 1
  tabs : prev.tabs = []

/-- The reader's state is what a paragraph with the format `fmt` sets. -/
structure RtfState.Holds (s : RtfState) (fmt : PWParaFormat) : Prop where
  indentLeft : s.indentLeft = fmt.indentLeft
  indentRight : s.indentRight = fmt.indentRight
  indentFirst : s.indentFirst = fmt.indentFirst
  spaceBefore : s.spaceBefore = fmt.spaceBefore
  spaceAfter : s.spaceAfter = fmt.spaceAfter
  lineSpacing : s.lineSpacing = fmt.lineSpacing
  positive : 0 < s.lineSpacing
  tabs : s.tabs = fmt.tabs.map (·.x)

theorem tabs_eq_iff (pre : List Rat) {tabs : List PWTab} (h : ∀ tab ∈ tabs, ∃ k : Int, tab.x * 20 = k) :
    ((pre ++ tabs.map (fun tab => readTwips tab.x)).map (fun x => PWTab.mk x .left)).filter (·.kind = .left) =
      tabs.filter (·.kind = .left) ↔ (∀ tab ∈ tabs, tab.kind = .left ∧ FitsTwips tab.x) ∧ pre = [] := by
  have hfilter (xs : List Rat) : (xs.map (fun x => PWTab.mk x .left)).filter (·.kind = .left) =
      xs.map (fun x => PWTab.mk x .left) := by
    refine filter_eq_self.2 (fun tab htab => ?_)
    obtain ⟨x, -, rfl⟩ := mem_map.1 htab
    rfl
  rw [hfilter]
  constructor
  · intro heq
    have hlen := congrArg List.length heq
    have hle := length_filter_le (fun tab : PWTab => decide (tab.kind = .left)) tabs
    rw [length_map, length_append, length_map] at hlen
    have hpre : pre = [] := eq_nil_of_length_eq_zero (by omega)
    have hall := length_filter_eq_length_iff.1 (Nat.le_antisymm hle (by omega))
    subst hpre
    rw [filter_eq_self.2 hall, nil_append, map_map] at heq
    refine ⟨fun tab htab => ⟨of_decide_eq_true (hall tab htab), ?_⟩, rfl⟩
    have htab' := map_inj_left.1 (heq.trans (map_id tabs).symm) tab htab
    exact (readTwips_eq_iff (h tab htab)).1 (congrArg PWTab.x htab')
  · rintro ⟨hall, rfl⟩
    rw [filter_eq_self.2 (fun tab htab => decide_eq_true (hall tab htab).1), nil_append, map_map]
    refine (map_congr_left (fun tab htab => ?_)).trans (map_id tabs)
    obtain ⟨hkind, hfits⟩ := hall tab htab
    refine (congrArg (fun x => PWTab.mk x .left) ((readTwips_eq_iff (h tab htab)).2 hfits)).trans ?_
    exact congrArg (PWTab.mk tab.x) hkind.symm

theorem carriedSpacing_pos {x y : Rat} (hx : 0 < x) (h : ∃ m : Int, 0 < m ∧ y * 240 = m) : 0 < carriedSpacing x y := by
  obtain ⟨m, hm, hy⟩ := h
  unfold carriedSpacing
  split_ifs
  · have hpos : 0 < toInt ((m : Rat) + 1 / 2) := by
      rw [toInt_half]
      split_ifs <;> omega
    unfold readSpacing
    rw [int32_toInt, hy]
    exact div_pos (by exact_mod_cast hpos) (by norm_num)
  · exact hx

theorem kept_eq_iff (a b : PWParaFormat) : a.kept = b.kept ↔ a.alignment = b.alignment ∧ a.indentLeft = b.indentLeft ∧
    a.indentRight = b.indentRight ∧ a.indentFirst = b.indentFirst ∧ a.lineSpacing = b.lineSpacing ∧
      a.spaceBefore = b.spaceBefore ∧ a.spaceAfter = b.spaceAfter ∧
        a.tabs.filter (·.kind = .left) = b.tabs.filter (·.kind = .left) := by
  unfold PWParaFormat.kept
  rw [PWParaFormat.mk.injEq]
  simp only [true_and]

/-- **One paragraph**: its format comes back just if it fits and overrides what is in the state. -/
theorem setPara_kept_iff {s : RtfState} {prev fmt : PWParaFormat} (hs : s.Holds prev) (hf : fmt.OnGrid) :
    ((s.setPara fmt).paraFormat {}).kept = fmt.kept ↔ fmt.Fits ∧ Overrides prev fmt := by
  have hpos : (s.setPara fmt).lineSpacing > 0 := carriedSpacing_pos hs.positive hf.lineSpacing
  rw [kept_eq_iff]
  unfold RtfState.paraFormat
  dsimp only
  rw [if_pos hpos]
  unfold RtfState.setPara
  dsimp only
  rw [hs.indentLeft, hs.indentRight, hs.indentFirst, hs.lineSpacing, hs.spaceBefore, hs.spaceAfter, hs.tabs,
    carried_eq_iff _ hf.indentLeft, carried_eq_iff _ hf.indentRight, carried_eq_iff _ hf.indentFirst,
    carriedSpacing_eq_iff _ hf.lineSpacing, carried_eq_iff _ hf.spaceBefore, carried_eq_iff _ hf.spaceAfter,
    tabs_eq_iff _ hf.tabs, map_eq_nil_iff]
  constructor
  · rintro ⟨ha, ⟨hl, hl'⟩, ⟨hr, hr'⟩, ⟨hi, hi'⟩, ⟨hs, hs'⟩, ⟨hb, hb'⟩, ⟨he, he'⟩, ht, ht'⟩
    exact ⟨⟨ha, hl, hr, hi, hb, he, hs, ht⟩, ⟨hl', hr', hi', hb', he', hs', ht'⟩⟩
  · rintro ⟨⟨ha, hl, hr, hi, hb, he, hs, ht⟩, ⟨hl', hr', hi', hb', he', hs', ht'⟩⟩
    exact ⟨ha, ⟨hl, hl'⟩, ⟨hr, hr'⟩, ⟨hi, hi'⟩, ⟨hs, hs'⟩, ⟨hb, hb'⟩, ⟨he, he'⟩, ht, ht'⟩

theorem holds_setPara {s : RtfState} {prev fmt : PWParaFormat} (hs : s.Holds prev) (hf : fmt.OnGrid) (h : fmt.Fits)
    (ho : Overrides prev fmt) : (s.setPara fmt).Holds fmt where
  indentLeft := (carried_eq_iff _ hf.indentLeft).2 ⟨h.indentLeft, hs.indentLeft ▸ ho.indentLeft⟩
  indentRight := (carried_eq_iff _ hf.indentRight).2 ⟨h.indentRight, hs.indentRight ▸ ho.indentRight⟩
  indentFirst := (carried_eq_iff _ hf.indentFirst).2 ⟨h.indentFirst, hs.indentFirst ▸ ho.indentFirst⟩
  spaceBefore := (carried_eq_iff _ hf.spaceBefore).2 ⟨h.spaceBefore, hs.spaceBefore ▸ ho.spaceBefore⟩
  spaceAfter := (carried_eq_iff _ hf.spaceAfter).2 ⟨h.spaceAfter, hs.spaceAfter ▸ ho.spaceAfter⟩
  lineSpacing := (carriedSpacing_eq_iff _ hf.lineSpacing).2 ⟨h.lineSpacing, hs.lineSpacing ▸ ho.lineSpacing⟩
  positive := carriedSpacing_pos hs.positive hf.lineSpacing
  tabs := by
    have htabs : fmt.tabs.map (fun tab => readTwips tab.x) = fmt.tabs.map (·.x) :=
      map_congr_left (fun tab htab => (readTwips_eq_iff (hf.tabs tab htab)).2 (h.tabs tab htab).2)
    unfold RtfState.setPara
    dsimp only
    rw [hs.tabs, ho.tabs, htabs]
    rfl

/-- **Every paragraph**: the formats come back just if each fits and overrides the one in front of it. -/
theorem readFormats_iff : ∀ {s : RtfState} {prev : PWParaFormat} {fmts : List PWParaFormat}, s.Holds prev →
    (∀ fmt ∈ fmts, fmt.OnGrid) → ((readFormats s fmts).map PWParaFormat.kept = fmts.map PWParaFormat.kept ↔
      (∀ fmt ∈ fmts, fmt.Fits) ∧ List.IsChain Overrides (prev :: fmts))
  | s, prev, [], _, _ => by
    rw [readFormats]
    exact iff_of_true rfl ⟨fun fmt hfmt => absurd hfmt not_mem_nil, List.IsChain.singleton prev⟩
  | s, prev, fmt :: fmts, hs, hf => by
    have hfmt := hf fmt mem_cons_self
    have hrest (h : fmt.Fits) (ho : Overrides prev fmt) :=
      readFormats_iff (holds_setPara hs hfmt h ho) (fun fmt hfmt => hf fmt (mem_cons_of_mem _ hfmt))
    rw [readFormats, map_cons, map_cons, List.cons.injEq, setPara_kept_iff hs hfmt, forall_mem_cons,
      isChain_cons_cons]
    constructor
    · rintro ⟨⟨h, ho⟩, heq⟩
      obtain ⟨hfits, hchain⟩ := (hrest h ho).1 heq
      exact ⟨⟨h, hfits⟩, ho, hchain⟩
    · rintro ⟨⟨h, hfits⟩, ho, hchain⟩
      exact ⟨⟨h, ho⟩, (hrest h ho).2 ⟨hfits, hchain⟩⟩

theorem holds_start : ({} : RtfState).Holds {} := ⟨rfl, rfl, rfl, rfl, rfl, rfl, by decide, rfl⟩

theorem overrides_plain (fmt : PWParaFormat) : Overrides {} fmt :=
  ⟨fun h => absurd rfl h, fun h => absurd rfl h, fun h => absurd rfl h, fun h => absurd rfl h, fun h => absurd rfl h,
    fun h => absurd rfl h, rfl⟩

theorem isChain_plain (fmts : List PWParaFormat) :
    List.IsChain Overrides ({} :: fmts) ↔ List.IsChain Overrides fmts := by
  cases fmts with
  | nil => exact iff_of_true (List.IsChain.singleton _) List.IsChain.nil
  | cons fmt fmts => rw [isChain_cons_cons, and_iff_right (overrides_plain fmt)]

/-- Two paragraphs, the first with the format `fmt`, the second with `fmt'`. -/
def twoFormats (fmt fmt' : PWParaFormat) : PWDocument :=
  (((PWDocument.new noFamily).insert 0 [byteA, newline, byteB] none).setParaFormat 0 fmt).setParaFormat 1 fmt'

def indented : List PWParaFormat := [{ indentLeft := 36, alignment := .center }, { indentLeft := 18, tabs := [⟨72, .left⟩] }]

def indentedDoc : PWDocument := twoFormats { indentLeft := 36, alignment := .center } { indentLeft := 18, tabs := [⟨72, .left⟩] }

end Writer
end Prose
