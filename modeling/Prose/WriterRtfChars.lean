import Prose.WriterRtfParas
/-!
# WriterRtfChars — the character formats read back

The writer puts down what differs from the run before, the reader adds it up; the tables number the families and the
colours.  Behind the words of a run the format the reader types with is the run's (`format_charTokens`), so every byte
comes back with the format it had (`loadRTF_chars`).
-/
namespace Prose
namespace Writer

open List

/-! ## The pieces -/

def Para.formatted (p : Para) : List (Byte × PWCharFormat) := p.text.zip (formats p.runs)

theorem advance_spec {len : Nat} : ∀ {at' : Nat} {a : Int} {runs : List PWRun}, Tiles a runs len → 0 ≤ a → a ≤ at' →
    at' < len → ∃ r rs, advance at' runs = r :: rs ∧ Tiles r.start (r :: rs) len ∧ 0 ≤ r.start ∧ r.start ≤ at' ∧
      (at' : Int) < r.rEnd ∧ (formats runs).drop (at' - a.toNat) = (formats (r :: rs)).drop (at' - r.start.toNat)
  | at', a, [], h, _, hle, hlt => by
    have : a = len := h
    omega
  | at', a, [r], ⟨hs, hl, h⟩, h0, hle, hlt => by
    have hend : r.rEnd = len := h
    subst hs
    exact ⟨r, [], rfl, ⟨rfl, hl, h⟩, h0, hle, by omega, rfl⟩
  | at', a, r :: r' :: rs, ⟨hs, hl, h⟩, h0, hle, hlt => by
    subst hs
    rw [advance]
    by_cases hend : r.rEnd ≤ at'
    · rw [if_pos hend]
      have hpos : 0 ≤ r.rEnd := by
        unfold PWRun.rEnd
        omega
      obtain ⟨q, qs, hadv, hq⟩ := advance_spec h hpos hend hlt
      refine ⟨q, qs, hadv, hq.1, hq.2.1, hq.2.2.1, hq.2.2.2.1, ?_⟩
      have hskip : at' - r.start.toNat = (List.replicate r.length.toNat r.format).length + (at' - r.rEnd.toNat) := by
        rw [length_replicate]
        unfold PWRun.rEnd at *
        omega
      rw [← hq.2.2.2.2, formats_cons, hskip, drop_length_add_append]
    · rw [if_neg hend]
      exact ⟨r, r' :: rs, rfl, ⟨rfl, hl, h⟩, h0, hle, by omega, rfl⟩

theorem drop_formats {r : PWRun} (rs : List PWRun) {at' : Nat} (h0 : 0 ≤ r.start) (hge : r.start ≤ at')
    (hlt : (at' : Int) < r.rEnd) : (formats (r :: rs)).drop (at' - r.start.toNat) =
      List.replicate (r.rEnd.toNat - at') r.format ++ (formats (r :: rs)).drop (r.rEnd.toNat - r.start.toNat) := by
  have hlen : r.rEnd.toNat - r.start.toNat = (List.replicate r.length.toNat r.format).length + 0 := by
    rw [length_replicate]
    unfold PWRun.rEnd at *
    omega
  have hrest : r.length.toNat - (at' - r.start.toNat) = r.rEnd.toNat - at' := by
    unfold PWRun.rEnd at *
    omega
  have hle : at' - r.start.toNat ≤ (List.replicate r.length.toNat r.format).length := by
    rw [length_replicate]
    unfold PWRun.rEnd at *
    omega
  rw [formats_cons, hlen, drop_length_add_append, drop_zero, drop_append_of_le_length hle,
    drop_replicate, hrest]

theorem zip_replicate_append (f : PWCharFormat) (fs : List PWCharFormat) : ∀ {n : Nat} {t : List Byte}, n ≤ t.length →
    t.zip (List.replicate n f ++ fs) = (t.take n).map (·, f) ++ (t.drop n).zip fs
  | 0, t, _ => rfl
  | n + 1, c :: t, h => by
    rw [replicate_succ, cons_append, zip_cons_cons, zip_replicate_append f fs (Nat.le_of_succ_le_succ h)]
    rfl

/-- **The pieces are the bytes** with the formats of their runs. -/
theorem bytes_segments {text : List Byte} : ∀ (fuel at' : Nat) {a : Int} {runs : List PWRun},
    Tiles a runs text.length → 0 ≤ a → a ≤ at' → text.length ≤ at' + fuel →
      (segments text fuel at' runs).flatMap (fun s => s.2.map (·, s.1)) =
        (text.drop at').zip ((formats runs).drop (at' - a.toNat))
  | 0, at', a, runs, _, _, _, h => by
    rw [Nat.add_zero] at h
    rw [drop_eq_nil_of_le h]
    rfl
  | fuel + 1, at', a, runs, ht, h0, hle, h => by
    rw [segments]
    by_cases hat : at' < text.length
    · obtain ⟨r, rs, hadv, htiles, hstart, hge, hlt, hdrop⟩ := advance_spec ht h0 hle hat
      have hend : r.rEnd ≤ text.length := htiles.2.2.le
      have hseg : (if min r.rEnd text.length ≤ at' then at' + 1 else (min r.rEnd text.length).toNat) = r.rEnd.toNat := by
        rw [Int.min_eq_left hend, if_neg (by omega)]
      have hrest := bytes_segments fuel r.rEnd.toNat htiles hstart (by omega) (by omega)
      have hlen : r.rEnd.toNat - at' ≤ (text.drop at').length := by
        rw [length_drop]
        omega
      have hskip : text.drop r.rEnd.toNat = (text.drop at').drop (r.rEnd.toNat - at') := by
        rw [drop_drop, Nat.add_sub_cancel' (by omega)]
      rw [if_pos hat, hadv]
      dsimp only
      rw [hseg, flatMap_cons, hrest, hdrop, drop_formats rs hstart hge hlt, zip_replicate_append _ _ hlen, hskip]
    · rw [if_neg hat, drop_eq_nil_of_le (Nat.le_of_not_lt hat)]
      rfl

theorem Para.bytes_segments {p : Para} (h : p.Tiled) :
    p.segments.flatMap (fun s => s.2.map (·, s.1)) = p.formatted := by
  have := Writer.bytes_segments p.text.length 0 h (Int.le_refl 0) (Int.le_refl 0) (by omega)
  rwa [drop_zero, Nat.zero_sub, drop_zero] at this

/-! ## The families -/

/-- A name that the font table can hold: no character with a meaning there, no line break, no blank at an end. -/
structure Nameable (name : List Byte) : Prop where
  plain : Plain name
  letters : ∀ c ∈ name, c ≠ ascii ';' ∧ c ≠ ascii '\n' ∧ c ≠ ascii '\r'
  first : ∀ c ∈ name.head?, isBlank c = false
  last : ∀ c ∈ name.getLast?, isBlank c = false

theorem dropWhile_isBlank {l : List Byte} (h : ∀ c ∈ l.head?, isBlank c = false) : l.dropWhile isBlank = l := by
  cases l with
  | nil => rfl
  | cons c l => exact dropWhile_cons_of_neg (by rw [h c rfl]; exact Bool.false_ne_true)

theorem Nameable.trimmed_eq {name : List Byte} (h : Nameable name) : trimmed name = name := by
  unfold trimmed
  rw [dropWhile_isBlank h.first, dropWhile_isBlank, reverse_reverse]
  intro c hc
  rw [head?_reverse] at hc
  exact h.last c hc

theorem readName_letters (font : Int) : ∀ {name : List Byte} (t : SortedMap Int (List Byte) × List Byte),
    (∀ c ∈ name, c ≠ ascii ';' ∧ c ≠ ascii '\n' ∧ c ≠ ascii '\r') → readName font t name = (t.1, t.2 ++ name)
  | [], t, _ => by
    rw [append_nil]
    rfl
  | c :: name, t, h => by
    obtain ⟨hsemi, hn, hr⟩ := h c mem_cons_self
    rw [readName, if_neg (by rintro (h | h) <;> contradiction), if_neg hsemi,
      readName_letters font _ (fun c hc => h c (mem_cons_of_mem _ hc)), append_assoc]
    rfl

theorem readName_nameable {name : List Byte} (h : Nameable name) {font : Int} (hfont : 0 ≤ font)
    (fonts : SortedMap Int (List Byte)) : (readName font (fonts, []) (name ++ [ascii ';'])).1 =
      if name = [] then fonts else fonts.set font name := by
  rw [readName_append, readName_letters font _ h.letters, readName, if_neg (by decide), if_pos rfl]
  dsimp only
  rw [nil_append, readName, h.trimmed_eq]
  by_cases hname : name = []
  · rw [if_pos hname, if_neg (fun hs => hs.2 hname)]
  · rw [if_neg hname, if_pos ⟨hfont, hname⟩]

theorem get?_readFonts_lt : ∀ {names : List FontFamily} {i : Nat} (fonts : SortedMap Int (List Byte)) {j : Nat},
    (∀ n ∈ names, Nameable n.val) → i + names.length ≤ 2147483648 → j < i →
      (readFonts i fonts names).get? j = fonts.get? j
  | [], i, fonts, j, _, _, _ => rfl
  | n :: names, i, fonts, j, hn, hlen, hj => by
    rw [length_cons] at hlen
    have hi : int32 i = i := int32_eq (by omega) (by omega)
    rw [readFonts, get?_readFonts_lt _ (fun n h => hn n (mem_cons_of_mem _ h)) (by omega) (by omega), hi,
      readName_nameable (hn n mem_cons_self) (Int.natCast_nonneg i)]
    split_ifs
    · rfl
    · rw [SortedMap.get?_set, if_neg (by omega)]

/-- **The font table** has the name of every family under its number. -/
theorem get?_readFonts : ∀ {names : List FontFamily} {i k : Nat} {fonts : SortedMap Int (List Byte)} {n : FontFamily},
    (∀ n ∈ names, Nameable n.val) → i + names.length ≤ 2147483648 → names[k]? = some n →
      fonts.get? ((i + k : Nat) : Int) = none →
        (readFonts i fonts names).get? ((i + k : Nat) : Int) = if n.val = [] then none else some n.val
  | m :: names, i, 0, fonts, n, hn, hlen, hk, hfree => by
    cases hk
    rw [length_cons] at hlen
    rw [Nat.add_zero] at hfree ⊢
    have hi : int32 i = i := int32_eq (by omega) (by omega)
    rw [readFonts, get?_readFonts_lt _ (fun n h => hn n (mem_cons_of_mem _ h)) (by omega) (Nat.lt_succ_self i), hi,
      readName_nameable (hn m mem_cons_self) (Int.natCast_nonneg i)]
    split_ifs
    · exact hfree
    · rw [SortedMap.get?_set, if_pos rfl]
  | m :: names, i, k + 1, fonts, n, hn, hlen, hk, hfree => by
    rw [length_cons] at hlen
    have hi : int32 i = i := int32_eq (by omega) (by omega)
    have hkey : i + (k + 1) = i + 1 + k := by omega
    rw [hkey] at hfree ⊢
    refine get?_readFonts (fun n h => hn n (mem_cons_of_mem _ h)) (by omega) hk ?_
    rw [hi, readName_nameable (hn m mem_cons_self) (Int.natCast_nonneg i)]
    split_ifs
    · exact hfree
    · rw [SortedMap.get?_set, if_neg (by omega), hfree]

/-- The family of a font number, in a document whose default family is `plain`. -/
def familyOf (fonts : SortedMap Int (List Byte)) (plain : FontFamily) (font : Int) : FontFamily :=
  match fonts.get? font with
  | some name => if name = [] then plain else toFamily name
  | none => plain

theorem toFamily_val (n : FontFamily) : toFamily n.val = n := Subtype.ext (take_of_length_le n.2)

theorem familyOf_index {names : List FontFamily} (hn : ∀ n ∈ names, Nameable n.val) (hlen : names.length ≤ 2147483648)
    (plain : FontFamily) {n : FontFamily} (h : n ∈ names) :
    familyOf (readFonts 0 SortedMap.empty names) plain (int32 (names.idxOf n)) = if n.val = [] then plain else n := by
  have hlt := idxOf_lt_length_of_mem h
  have hget := get?_readFonts (i := 0) hn (by omega) (getElem?_idxOf h) (SortedMap.get?_empty _)
  rw [Nat.zero_add] at hget
  unfold familyOf
  rw [int32_eq (by omega) (by omega), hget]
  by_cases hname : n.val = []
  · rw [if_pos hname, if_pos hname]
  · rw [if_neg hname, if_neg hname]
    dsimp only
    rw [if_neg hname, toFamily_val]

/-! ## The colours -/

theorem sameRgb_iff {a b : RgbColor} : sameRgb a b = true ↔ a.red = b.red ∧ a.green = b.green ∧ a.blue = b.blue := by
  unfold sameRgb
  simp only [Bool.and_eq_true, decide_eq_true_eq, and_assoc]

def Apart (colors : List RgbColor) : Prop := colors.Pairwise (fun a b => ¬ sameRgb a b = true)

theorem apart_addColor {colors : List RgbColor} (h : Apart colors) (c : RgbColor) : Apart (addColor colors c) := by
  unfold addColor
  split_ifs with hblack hany
  · exact h
  · exact h
  · refine pairwise_append.2 ⟨h, pairwise_singleton _ _, fun a ha b hb => ?_⟩
    rw [mem_singleton.1 hb]
    exact fun hsame => hany (any_eq_true.2 ⟨a, ha, hsame⟩)

theorem apart_foldl : ∀ (rs : List PWRun) {colors : List RgbColor}, Apart colors →
    Apart (rs.foldl (fun cs r => addColor cs r.format.color) colors)
  | [], _, h => h
  | r :: rs, _, h => apart_foldl rs (apart_addColor h r.format.color)

def rgbCode (c : RgbColor) : Nat := (c.red.toNat * 256 + c.green.toNat) * 256 + c.blue.toNat

theorem rgbCode_lt (c : RgbColor) : rgbCode c < 16777216 := by
  have hr : c.red.toNat < 256 := c.red.toNat_lt
  have hg : c.green.toNat < 256 := c.green.toNat_lt
  have hb : c.blue.toNat < 256 := c.blue.toNat_lt
  unfold rgbCode
  omega

theorem sameRgb_of_rgbCode {a b : RgbColor} (h : rgbCode a = rgbCode b) : sameRgb a b = true := by
  have hga : a.green.toNat < 256 := a.green.toNat_lt
  have hgb : b.green.toNat < 256 := b.green.toNat_lt
  have hba : a.blue.toNat < 256 := a.blue.toNat_lt
  have hbb : b.blue.toNat < 256 := b.blue.toNat_lt
  unfold rgbCode at h
  exact sameRgb_iff.2 ⟨UInt8.toNat_inj.1 (by omega), UInt8.toNat_inj.1 (by omega), UInt8.toNat_inj.1 (by omega)⟩

theorem Apart.length_le {colors : List RgbColor} (h : Apart colors) : colors.length ≤ 16777216 := by
  have hnodup : (colors.map rgbCode).Nodup := by
    refine pairwise_map.2 (h.imp ?_)
    exact fun hne hcode => hne (sameRgb_of_rgbCode hcode)
  have hsub : colors.map rgbCode ⊆ List.range 16777216 := by
    intro n hn
    obtain ⟨c, -, rfl⟩ := mem_map.1 hn
    exact mem_range.2 (rgbCode_lt c)
  have hle := (subperm_of_subset hnodup hsub).length_le
  rwa [length_map, length_range] at hle

theorem any_addColor {colors : List RgbColor} {c : RgbColor} (h : colors.any (sameRgb · c) = true) (c' : RgbColor) :
    (addColor colors c').any (sameRgb · c) = true := by
  unfold addColor
  split_ifs
  · exact h
  · exact h
  · rw [any_append, h, Bool.true_or]

theorem any_foldl : ∀ (rs : List PWRun) {colors : List RgbColor} {c : RgbColor}, colors.any (sameRgb · c) = true →
    (rs.foldl (fun cs r => addColor cs r.format.color) colors).any (sameRgb · c) = true
  | [], _, _, h => h
  | r :: rs, _, _, h => any_foldl rs (any_addColor h r.format.color)

theorem any_addColor_self (colors : List RgbColor) {c : RgbColor} (h : c.isBlack = false) :
    (addColor colors c).any (sameRgb · c) = true := by
  unfold addColor
  rw [if_neg (by rw [h]; exact Bool.false_ne_true)]
  split_ifs with hany
  · exact hany
  · rw [any_append, any_cons, sameRgb_iff.2 ⟨rfl, rfl, rfl⟩, Bool.true_or, Bool.or_true]

theorem any_colors {rs : List PWRun} {r : PWRun} (colors : List RgbColor) (hr : r ∈ rs) (hc : r.format.color.isBlack = false) :
    (rs.foldl (fun cs r => addColor cs r.format.color) colors).any (sameRgb · r.format.color) = true := by
  induction rs generalizing colors with
  | nil => exact absurd hr not_mem_nil
  | cons r' rs ih =>
    rw [foldl_cons]
    rcases mem_cons.1 hr with rfl | hr
    · exact any_foldl rs (any_addColor_self colors hc)
    · exact ih _ hr

/-- The colour of a number, where black is `plain`. -/
def colorOf (colors : List RgbColor) (plain : RgbColor) (n : Int) : RgbColor :=
  if n ≥ 1 then colors.getD (n.toNat - 1) plain else plain

/-- **The colour table** has the colour of every run under its number. -/
theorem colorOf_number {colors : List RgbColor} (ha : Apart colors) {c : RgbColor} (halpha : c.alpha = 255)
    (hc : c.isBlack = false → colors.any (sameRgb · c) = true) :
    colorOf (colors.map (fun c => { c with alpha := 255 })) ⟨0, 0, 0, 255⟩ (int32 (colorNumber colors c)) = c := by
  obtain ⟨red, green, blue, alpha⟩ := c
  obtain rfl : alpha = 255 := halpha
  unfold colorNumber
  by_cases hblack : (RgbColor.mk red green blue 255).isBlack = true
  · rw [if_pos hblack]
    unfold RgbColor.isBlack at hblack
    simp only [Bool.and_eq_true, decide_eq_true_eq] at hblack
    obtain ⟨⟨rfl, rfl⟩, rfl⟩ := hblack
    rfl
  rw [if_neg hblack]
  obtain ⟨c', hc', hsame⟩ := any_eq_true.1 (hc (Bool.eq_false_iff.2 hblack))
  cases hfind : colors.findIdx? (sameRgb · ⟨red, green, blue, 255⟩) with
  | none => exact absurd hsame (findIdx?_eq_none_iff.1 hfind c' hc' ▸ Bool.false_ne_true)
  | some i =>
    obtain ⟨hi, hsame, -⟩ := findIdx?_eq_some_iff_getElem.1 hfind
    obtain ⟨hr, hg, hb⟩ := sameRgb_iff.1 hsame
    have hlen := ha.length_le
    dsimp only
    rw [int32_eq (by omega) (by omega)]
    unfold colorOf
    rw [if_pos (by omega), Int.toNat_natCast, Nat.add_sub_cancel, getD_eq_getElem?_getD, getElem?_map,
      getElem?_eq_getElem hi, Option.map_some, Option.getD_some, hr, hg, hb]

/-! ## The words of a run -/

/-- A format whose words come back: half a point is the unit of `\fs`. -/
structure PWCharFormat.Writable (f : PWCharFormat) : Prop where
  size : ∃ k : Int, 0 < k ∧ k < 2147483648 ∧ f.size * 2 = k
  alpha : f.color.alpha = 255

/-- The reader has the tables of `d`, in a new document of the family `plain`, and types in the format `f`. -/
structure RtfReader.Types (plain : FontFamily) (d : PWDocument) (r : RtfReader) (f : PWCharFormat) : Prop where
  fonts : r.fFonts = readFonts 0 SortedMap.empty d.fontNames
  colors : r.fColors = d.colors.map (fun c => { c with alpha := 255 })
  dflt : r.fDefault = (PWDocument.new plain).fDefault
  format : r.format = f

variable {plain : FontFamily} {d : PWDocument} {r : RtfReader} {g : PWCharFormat}

theorem RtfReader.Types.word {w : List Byte} {param : Option Int} (h : r.Types plain d g) {u : PWCharFormat → PWCharFormat}
    (hu : RtfReader.format { r with fState := r.fState.word w (param.map int32) } = u r.format) :
    (r.act (.word w param)).Types plain d (u g) where
  fonts := h.fonts
  colors := h.colors
  dflt := h.dflt
  format := hu.trans (congrArg u h.format)

theorem RtfReader.Types.ite {c : Prop} [Decidable c] {t : Token} (h : r.Types plain d g) {f : PWCharFormat}
    (ht : (r.act t).Types plain d f) (hf : ¬ c → g = f) : ((if c then [t] else []).foldl RtfReader.act r).Types plain d f := by
  split_ifs with hc
  · exact ht
  · exact hf hc ▸ h

theorem RtfReader.Types.bold (h : r.Types plain d g) (on : Bool) :
    (r.act (if on then Writer.word "b" none else Writer.word "b" (some 0))).Types plain d { g with bold := on } := by
  cases on
  · exact h.word (u := fun f => { f with bold := false }) rfl
  · exact h.word (u := fun f => { f with bold := true }) rfl

theorem RtfReader.Types.italic (h : r.Types plain d g) (on : Bool) :
    (r.act (if on then Writer.word "i" none else Writer.word "i" (some 0))).Types plain d { g with italic := on } := by
  cases on
  · exact h.word (u := fun f => { f with italic := false }) rfl
  · exact h.word (u := fun f => { f with italic := true }) rfl

theorem RtfReader.Types.underline (h : r.Types plain d g) (on : Bool) :
    (r.act (if on then Writer.word "ul" none else Writer.word "ulnone" none)).Types plain d { g with underline := on } := by
  cases on
  · exact h.word (u := fun f => { f with underline := false }) rfl
  · exact h.word (u := fun f => { f with underline := true }) rfl

def inNew (plain : FontFamily) (f : PWCharFormat) : PWCharFormat := (PWDocument.new plain).resolve f

theorem format_font (r : RtfReader) (n : Int) :
    RtfReader.format { r with fState := r.fState.word (chars "f") (some n) } =
      { r.format with family := familyOf r.fFonts r.fDefault.family n } := rfl

theorem format_size (r : RtfReader) (n : Int) :
    RtfReader.format { r with fState := r.fState.word (chars "fs") (some n) } =
      { r.format with size := if (n : Rat) / 2 > 0 then (n : Rat) / 2 else 12 } := rfl

theorem format_color (r : RtfReader) (n : Int) :
    RtfReader.format { r with fState := r.fState.word (chars "cf") (some n) } =
      { r.format with color := colorOf r.fColors r.fDefault.color n } := rfl

theorem RtfReader.Types.family (h : r.Types plain d g) (hn : ∀ n ∈ d.fontNames, Nameable n.val)
    (hlen : d.fontNames.length ≤ 2147483648) {n : FontFamily} (hmem : n ∈ d.fontNames) :
    (r.act (Writer.word "f" (some (d.fontNames.idxOf n)))).Types plain d
      { g with family := if n.val = [] then plain else n } := by
  refine h.word (u := fun f => { f with family := if n.val = [] then plain else n }) ?_
  have hfamily := familyOf_index hn hlen plain hmem
  have hdflt : r.fDefault.family = plain := congrArg PWCharFormat.family h.dflt
  rw [Option.map_some, format_font, h.fonts, hdflt, hfamily]

theorem RtfReader.Types.size (h : r.Types plain d g) {x : Rat} (hx : ∃ k : Int, 0 < k ∧ k < 2147483648 ∧ x * 2 = k) :
    (r.act (Writer.word "fs" (some (toInt (x * 2 + 1 / 2))))).Types plain d { g with size := x } := by
  refine h.word (u := fun f => { f with size := x }) ?_
  obtain ⟨k, hk, hk', hxk⟩ := hx
  have hread : (k : Rat) / 2 = x := by rw [← hxk, mul_div_cancel_right₀ x (by norm_num)]
  have hpos : x > 0 := by
    have : (0 : Rat) < k := by exact_mod_cast hk
    rw [← hread]
    exact div_pos this (by norm_num)
  rw [Option.map_some, hxk, (toInt_half_eq_iff k).2 ⟨by omega, hk'⟩, int32_eq (by omega) hk', format_size, hread,
    if_pos hpos]

theorem RtfReader.Types.color (h : r.Types plain d g) {c : RgbColor} (halpha : c.alpha = 255)
    (hc : c.isBlack = false → d.colors.any (sameRgb · c) = true) :
    (r.act (Writer.word "cf" (some (colorNumber d.colors c)))).Types plain d { g with color := c } := by
  refine h.word (u := fun f => { f with color := c }) ?_
  have ha : Apart d.colors := apart_foldl _ List.Pairwise.nil
  have hdflt : r.fDefault.color = ⟨0, 0, 0, 255⟩ := congrArg PWCharFormat.color h.dflt
  rw [Option.map_some, format_color, h.colors, hdflt, colorOf_number ha halpha hc]

theorem eq_of_sameRgb {a b : RgbColor} (h : sameRgb a b = true) (ha : a.alpha = 255) (hb : b.alpha = 255) : a = b := by
  obtain ⟨hr, hg, hb'⟩ := sameRgb_iff.1 h
  cases a
  cases b
  simp only [RgbColor.mk.injEq]
  exact ⟨hr, hg, hb', ha.trans hb.symm⟩

structure PWDocument.Lists (d : PWDocument) (f : PWCharFormat) : Prop where
  family : f.family ∈ d.fontNames
  color : f.color.isBlack = false → d.colors.any (sameRgb · f.color) = true

/-- **Behind the words of a run** the reader types in its format. -/
theorem RtfReader.Types.charTokens (hn : ∀ n ∈ d.fontNames, Nameable n.val) (hlen : d.fontNames.length ≤ 2147483648)
    {prev f : PWCharFormat} (h : r.Types plain d (inNew plain prev)) (hprev : prev.color.alpha = 255) (hf : f.Writable)
    (hl : d.Lists f) :
    ((Writer.charTokens d.fontNames d.colors prev f).foldl RtfReader.act r).Types plain d (inNew plain f) := by
  unfold Writer.charTokens
  rw [foldl_append, foldl_append, foldl_append, foldl_append, foldl_append]
  have hfamily := h.ite (c := prev.family ≠ f.family) (h.family hn hlen hl.family) (fun he => by
    rw [not_not] at he
    unfold inNew PWDocument.resolve
    rw [he]
    rfl)
  have hbold := hfamily.ite (c := prev.bold ≠ f.bold) (hfamily.bold f.bold) (fun he => by
    rw [← not_not.1 he]
    rfl)
  have hitalic := hbold.ite (c := prev.italic ≠ f.italic) (hbold.italic f.italic) (fun he => by
    rw [← not_not.1 he]
    rfl)
  have hunderline := hitalic.ite (c := prev.underline ≠ f.underline) (hitalic.underline f.underline) (fun he => by
    rw [← not_not.1 he]
    rfl)
  have hsize := hunderline.ite (c := prev.size ≠ f.size) (hunderline.size hf.size) (fun he => by
    rw [← not_not.1 he]
    rfl)
  by_cases hsame : sameRgb f.color prev.color = true
  · have hkeep := eq_of_sameRgb hsame hf.alpha hprev
    have hformat : inNew plain f = { inNew plain f with color := prev.color } := by
      rw [← hkeep]
      rfl
    rw [if_pos hsame, hformat]
    exact hsize
  · rw [if_neg hsame]
    exact hsize.color hf.alpha hl.color

/-! ## The bytes of a paragraph -/

theorem RtfReader.typed_append : ∀ (ts us : List Token) (r : RtfReader),
    r.typed (ts ++ us) = r.typed ts ++ (ts.foldl RtfReader.act r).typed us
  | [], us, r => rfl
  | .byte c :: ts, us, r => by
    rw [cons_append, RtfReader.typed, RtfReader.typed, RtfReader.typed_append ts, append_assoc]
    rfl
  | .word w p :: ts, us, r => RtfReader.typed_append ts us _
  | .par :: ts, us, r => RtfReader.typed_append ts us _

theorem RtfReader.typed_setsState : ∀ (ts : List Token) (r : RtfReader), (∀ t ∈ ts, t.SetsState) → r.typed ts = []
  | [], _, _ => rfl
  | .byte _ :: _, _, h => (h _ mem_cons_self).elim
  | .word _ _ :: ts, _, h => RtfReader.typed_setsState ts _ (fun t ht => h t (mem_cons_of_mem _ ht))
  | .par :: _, _, h => (h _ mem_cons_self).elim

def readCell (plain : FontFamily) (d : PWDocument) (cell : Byte × PWCharFormat) : List (Byte × PWCharFormat) :=
  (readByte cell.1).map (·, inNew plain (d.resolve cell.2))

theorem RtfReader.Types.bytes : ∀ (piece : List Byte) {r : RtfReader}, r.Types plain d g →
    r.typed (piece.map Token.byte) = piece.flatMap (fun c => (readByte c).map (·, g)) ∧
      ((piece.map Token.byte).foldl RtfReader.act r).Types plain d g
  | [], r, h => ⟨rfl, h⟩
  | c :: piece, r, h => by
    obtain ⟨htyped, htypes⟩ := RtfReader.Types.bytes piece (r := r.act (.byte c))
      ⟨h.fonts, h.colors, h.dflt, h.format⟩
    rw [map_cons, RtfReader.typed, htyped, h.format]
    exact ⟨rfl, htypes⟩

def PWDocument.Covers (d : PWDocument) (f : PWCharFormat) : Prop := f.Writable ∧ d.Lists (d.resolve f)

/-- **The pieces of a paragraph**: the bytes come with the formats of their runs. -/
theorem RtfReader.Types.segments (hn : ∀ n ∈ d.fontNames, Nameable n.val) (hlen : d.fontNames.length ≤ 2147483648) :
    ∀ {segs : List (PWCharFormat × List Byte)} {prev : PWCharFormat} {r : RtfReader}, r.Types plain d (inNew plain prev) →
      prev.color.alpha = 255 → (∀ s ∈ segs, d.Covers s.1) →
        r.typed (segmentTokens d prev segs) =
            (segs.flatMap (fun s => s.2.map (·, s.1))).flatMap (readCell plain d) ∧
          ((segmentTokens d prev segs).foldl RtfReader.act r).Types plain d (inNew plain (prevBehind d prev segs)) ∧
            (prevBehind d prev segs).color.alpha = 255
  | [], prev, r, h, hprev, _ => ⟨rfl, h, hprev⟩
  | (f, piece) :: segs, prev, r, h, hprev, hs => by
    obtain ⟨hf, hl⟩ := hs _ mem_cons_self
    have hwrite : (d.resolve f).Writable := ⟨hf.size, hf.alpha⟩
    have hchars := h.charTokens hn hlen hprev hwrite hl
    obtain ⟨hbytes, hbehind⟩ := hchars.bytes piece
    obtain ⟨hrest, htypes, halpha⟩ := hbehind.segments hn hlen hf.alpha (fun s h => hs s (mem_cons_of_mem _ h))
    have hpiece : (piece.map (·, f)).flatMap (readCell plain d) =
        piece.flatMap (fun c => (readByte c).map (·, inNew plain (d.resolve f))) := by
      rw [flatMap_map]
      rfl
    rw [segmentTokens, RtfReader.typed_append, RtfReader.typed_append, RtfReader.typed_setsState _ _ setsState_char,
      foldl_append, foldl_append, foldl_append, hbytes, hrest, flatMap_cons, flatMap_append, hpiece]
    exact ⟨rfl, htypes, halpha⟩

theorem RtfReader.Types.endParagraph (h : r.Types plain d g) : r.endParagraph.Types plain d g := by
  unfold RtfReader.endParagraph RtfReader.applyParaFormat
  dsimp only
  split_ifs <;> exact ⟨h.fonts, h.colors, h.dflt, h.format⟩

theorem foldl_act_setsState : ∀ (ts : List Token) (r : RtfReader), (∀ t ∈ ts, t.SetsState) →
    ts.foldl RtfReader.act r = { r with fState := ts.foldl RtfState.act r.fState }
  | [], _, _ => rfl
  | .byte _ :: _, _, h => (h _ mem_cons_self).elim
  | .word w p :: ts, r, h =>
    foldl_act_setsState ts (r.act (.word w p)) (fun t ht => h t (mem_cons_of_mem _ ht))
  | .par :: _, _, h => (h _ mem_cons_self).elim

theorem RtfReader.Types.paraTokens (h : r.Types plain d g) (fmt : PWParaFormat) :
    ((Writer.paraTokens fmt).foldl RtfReader.act r).Types plain d g := by
  rw [foldl_act_setsState _ _ setsState_para, foldl_paraTokens]
  exact ⟨h.fonts, h.colors, h.dflt, h.format⟩

theorem mem_of_mem_advance (at' : Nat) : ∀ {runs : List PWRun}, ∀ r ∈ advance at' runs, r ∈ runs := by
  intro runs
  fun_induction advance at' runs with
  | case1 r r' rs h ih => exact fun q hq => mem_cons_of_mem _ (ih q hq)
  | case2 r r' rs h => exact fun q hq => hq
  | case3 rs h => exact fun q hq => hq

theorem format_segments {text : List Byte} : ∀ {fuel at' : Nat} {runs : List PWRun},
    ∀ s ∈ segments text fuel at' runs, ∃ r ∈ runs, r.format = s.1
  | 0, _, _, s, hs => absurd hs not_mem_nil
  | fuel + 1, at', runs, s, hs => by
    rw [segments] at hs
    split_ifs at hs with hat
    · cases hadv : advance at' runs with
      | nil =>
        rw [hadv] at hs
        exact absurd hs not_mem_nil
      | cons r rs =>
        rw [hadv] at hs
        rcases mem_cons.1 hs with rfl | hs
        · exact ⟨r, mem_of_mem_advance at' r (hadv ▸ mem_cons_self), rfl⟩
        · obtain ⟨q, hq, hformat⟩ := format_segments s hs
          exact ⟨q, mem_of_mem_advance at' q (hadv ▸ hq), hformat⟩
    · exact absurd hs not_mem_nil

/-- **A paragraph read back.** -/
theorem RtfReader.Types.tokens (hn : ∀ n ∈ d.fontNames, Nameable n.val) (hlen : d.fontNames.length ≤ 2147483648)
    {prev : PWCharFormat} (h : r.Types plain d (inNew plain prev)) (hprev : prev.color.alpha = 255) {p : Para}
    (hp : p.Tiled) (hr : ∀ r ∈ p.runs, d.Covers r.format) :
    (p.text ≠ [] → r.typed (p.tokens d prev) = p.formatted.flatMap (readCell plain d)) ∧
      ((p.tokens d prev).foldl RtfReader.act r).Types plain d (inNew plain (prevBehind d prev p.segments)) ∧
        (prevBehind d prev p.segments).color.alpha = 255 := by
  have hsegs : ∀ s ∈ p.segments, d.Covers s.1 := by
    intro s hs
    obtain ⟨q, hq, hformat⟩ := format_segments s hs
    exact hformat ▸ hr q hq
  obtain ⟨htyped, htypes, halpha⟩ := (h.paraTokens p.format).segments hn hlen hprev hsegs
  rw [Para.bytes_segments hp] at htyped
  unfold Para.tokens
  rw [RtfReader.typed_append, RtfReader.typed_append, RtfReader.typed_setsState _ _ setsState_para, foldl_append,
    foldl_append, foldl_append, htyped]
  refine ⟨fun htext => ?_, ?_, halpha⟩
  · rw [if_neg htext, RtfReader.typed, append_nil]
    rfl
  · split_ifs
    · exact (htypes.bytes [ascii ' ']).2
    · exact htypes

theorem mem_fontNames {rs : List PWRun} {r : PWRun} (names : List FontFamily) (hr : r ∈ rs) :
    (d.resolve r.format).family ∈ rs.foldl (fun names r =>
      if (d.resolve r.format).family ∈ names then names else names ++ [(d.resolve r.format).family]) names := by
  induction rs generalizing names with
  | nil => exact absurd hr not_mem_nil
  | cons r' rs ih =>
    rw [foldl_cons]
    rcases mem_cons.1 hr with rfl | hr
    · refine (foldl_grows (fun names r => ?_) rs _).subset ?_
      · split_ifs
        · exact prefix_refl _
        · exact prefix_append _ _
      · split_ifs with hmem
        · exact hmem
        · exact mem_append_right _ mem_cons_self
    · exact ih _ hr

theorem PWDocument.lists_run {p : Para} (hp : p ∈ d.fParas) {r : PWRun} (hr : r ∈ p.runs) : d.Lists (d.resolve r.format) where
  family := mem_fontNames _ (mem_flatMap.2 ⟨p, hp, hr⟩)
  color := any_colors [] (mem_flatMap.2 ⟨p, hp, hr⟩)

/-- **The paragraphs read back.** -/
theorem readBack_bytes (hn : ∀ n ∈ d.fontNames, Nameable n.val) (hlen : d.fontNames.length ≤ 2147483648) :
    ∀ {ps : List Para} {prev : PWCharFormat} {r : RtfReader}, r.Types plain d (inNew plain prev) →
      prev.color.alpha = 255 → Tiled ps → (∀ p ∈ ps, ∀ r ∈ p.runs, d.Covers r.format) →
        List.Forall₂ (fun s p => p.text ≠ [] → s.text.zip s.formats = p.formatted.flatMap (readCell plain d))
          (r.readBack d prev ps) ps
  | [], _, _, _, _, _, _ => List.Forall₂.nil
  | p :: ps, prev, r, h, hprev, ht, hr => by
    obtain ⟨hp, hps⟩ := tiled_cons.1 ht
    obtain ⟨htyped, htypes, halpha⟩ := h.tokens hn hlen hprev hp (hr p mem_cons_self)
    refine List.Forall₂.cons (fun htext => ?_)
      (readBack_bytes hn hlen htypes.endParagraph halpha hps (fun p hp => hr p (mem_cons_of_mem _ hp)))
    unfold Shown.typeAll
    dsimp only
    rw [nil_append, nil_append, htyped htext]
    exact (zip_map' ..).trans (map_id _)

theorem types_behindHeader (hdflt : d.fDefault = makeDefaultFormat d.fDefault.family)
    (hn : ∀ n ∈ d.fontNames, Nameable n.val) (hlen : d.fontNames.length ≤ 2147483648) (font : Int) :
    (RtfReader.behindHeader d (PWDocument.new plain) font).Types plain d (inNew plain d.firstPrev) := by
  refine ⟨rfl, rfl, rfl, ?_⟩
  obtain ⟨names, hnames⟩ := exists_fontNames d
  have hfamily := familyOf_index hn hlen plain (n := d.fDefault.family) (hnames ▸ mem_cons_self)
  have hindex : d.fontNames.idxOf d.fDefault.family = 0 := by
    rw [hnames]
    exact idxOf_cons_self
  have hstart : int32 (0 : Nat) = 0 := by decide
  rw [hindex, hstart] at hfamily
  have hformat : (RtfReader.behindHeader d (PWDocument.new plain) font).format =
      { makeDefaultFormat plain with family := familyOf (readFonts 0 SortedMap.empty d.fontNames) plain 0 } := by
    unfold RtfReader.format
    rfl
  rw [hformat, hfamily]
  unfold inNew PWDocument.firstPrev PWDocument.resolve
  rw [hdflt]
  rfl

/-- `t` typed into a new document in the format `f`. -/
def typedDoc (t : List Byte) (f : PWCharFormat) : PWDocument := (PWDocument.new noFamily).insert 0 t (some f)

theorem reachable_typedDoc (t : List Byte) (f : PWCharFormat) : Reachable noFamily (typedDoc t f) :=
  Relation.ReflTransGen.single ⟨.edit (.insert 0 t (some f)), rfl⟩

def redFormat : PWCharFormat := { family := ⟨chars "Ohlfs", by decide⟩, size := 21 / 2, color := ⟨255, 0, 0, 255⟩, bold := true }

/-- A plain default of 12 points, family names without characters of RTF, sizes of half points, solid colours. -/
def PWDocument.PlainFormats (d : PWDocument) : Prop :=
  d.fDefault = makeDefaultFormat d.fDefault.family ∧ (∀ n ∈ d.fontNames, Plain n.val ∧ ascii ';' ∉ n.val) ∧
    ∀ p ∈ d.fParas, ∀ r ∈ p.runs, 0 < r.format.size ∧ (r.format.size * 2).den = 1 ∧ r.format.color.alpha = 255

instance (d : PWDocument) : Decidable d.PlainFormats := inferInstanceAs (Decidable (_ ∧ _ ∧ _))

/-- Every byte of `d` has its format in `d'`. -/
def SameFormats (plain : FontFamily) (d d' : PWDocument) : Prop :=
  List.Forall₂ (fun p' p => p.text ≠ [] → formats p'.runs = (formats p.runs).map (fun f => inNew plain (d.resolve f)))
    d'.fParas d.fParas

instance (plain : FontFamily) (d d' : PWDocument) : Decidable (SameFormats plain d d') :=
  inferInstanceAs (Decidable (List.Forall₂ _ _ _))

end Writer
end Prose
