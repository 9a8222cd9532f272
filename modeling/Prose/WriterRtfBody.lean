import Prose.WriterRtfTokens
import Prose.WriterShown
/-!
# WriterRtfBody — reading back a body the writer wrote

The body of `PW_WriteRTF` is rendered tokens (`render_paras`), and the reader acts on them: `readBack` is what its
document shows behind them, paragraph by paragraph.
-/
namespace Prose
namespace Writer

open Scan List

/-! ## The document under the tokens -/

/-- The reader's document shows `pre`, and `s` last; only paragraphs before the last have got their format. -/
structure RtfReader.At (r : RtfReader) (pre : List Shown) (s : Shown) : Prop where
  shows : Shows r.fDoc pre s
  seen : ∀ i ∈ r.fSeenAlignForPara, i < pre.length

theorem cString_val (t : List Byte) : cString (t.map Subtype.val) = t := by
  induction t with
  | nil => rfl
  | cons c t ih => rw [map_cons, cString, dif_pos c.2, ih]

theorem length_typeLines (f : PWCharFormat) : ∀ (pre : List Shown) (s : Shown) (ls : List (List Byte)),
    pre.length ≤ (typeLines f pre s ls).1.length
  | _, _, []  => Nat.le_refl _
  | _, _, [_] => Nat.le_refl _
  | pre, s, l :: m :: ls => by
    have := length_typeLines f (pre ++ [s.type l f]) { format := s.format } (m :: ls)
    rw [length_append] at this
    rw [typeLines]
    omega

theorem RtfReader.At.emit {r : RtfReader} {pre : List Shown} {s : Shown} (h : r.At pre s) (bytes : List UInt8) :
    (r.emit bytes).At (typeLines r.format pre s (lines (cString bytes))).1
      (typeLines r.format pre s (lines (cString bytes))).2 :=
  ⟨h.shows.insert _ _, fun i hi => Nat.lt_of_lt_of_le (h.seen i hi) (length_typeLines ..)⟩

theorem newline_not_mem_readByte (c : Byte) : newline ∉ readByte c := by
  unfold readByte
  split_ifs with h1 h2
  · exact not_mem_nil
  · decide
  · rw [mem_singleton]
    exact fun h => h1 (Or.inl h.symm)

theorem RtfReader.At.byte {r : RtfReader} {pre : List Shown} {s : Shown} (h : r.At pre s) (c : Byte) :
    (r.act (.byte c)).At pre (s.type (readByte c) r.format) := by
  have := h.emit ((readByte c).map Subtype.val)
  rwa [cString_val, lines_of_oneLine (newline_not_mem_readByte c), typeLines] at this

theorem RtfReader.At.endParagraph {r : RtfReader} {pre : List Shown} {s : Shown} (h : r.At pre s) :
    r.endParagraph.At (pre ++ [{ s with format := r.fState.paraFormat s.format }]) { format := s.format } := by
  have hnew := h.shows.insert_newline
  have hlen := hnew.length
  rw [length_append, length_singleton] at hlen
  have hat : ((r.fDoc.insert (docLength r.fDoc.fParas) [newline] none).fParas.length : Int) - 2 = pre.length := by
    omega
  have hlt : ¬ ((pre.length : Int) < 0 ∨
      (pre.length : Int) ≥ (r.fDoc.insert (docLength r.fDoc.fParas) [newline] none).fParas.length) := by
    omega
  have hshows : shown (r.fDoc.insert (docLength r.fDoc.fParas) [newline] none).fParas =
      pre ++ s :: [{ format := s.format }] := by
    rw [hnew.eq, append_assoc, singleton_append]
  obtain ⟨htiled, hshown, hformat⟩ := setParaFormat_shown hnew.tiled hshows (r.fState.paraFormat s.format)
  unfold RtfReader.endParagraph RtfReader.applyParaFormat
  dsimp only
  rw [hat, if_neg hlt, Int.toNat_natCast, if_neg (fun hi => Nat.lt_irrefl _ (h.seen _ hi)), hformat]
  refine ⟨⟨htiled, ?_⟩, fun i hi => ?_⟩
  · rw [hshown, append_assoc, singleton_append]
  · rw [length_append, length_singleton]
    rcases mem_cons.1 hi with rfl | hi
    · exact Nat.lt_succ_self _
    · exact Nat.lt_succ_of_lt (h.seen i hi)

theorem RtfReader.At.finish {r : RtfReader} {pre : List Shown} {s : Shown} (h : r.At pre s) :
    shown (r.applyParaFormat (r.fDoc.fParas.length - 1)).fDoc.fParas =
      pre ++ [{ s with format := r.fState.paraFormat s.format }] := by
  have hlen := h.shows.length
  have hat : (r.fDoc.fParas.length : Int) - 1 = pre.length := by
    omega
  have hlt : ¬ ((pre.length : Int) < 0 ∨ (pre.length : Int) ≥ r.fDoc.fParas.length) := by
    omega
  obtain ⟨-, hshown, hformat⟩ := setParaFormat_shown h.shows.tiled h.shows.eq (r.fState.paraFormat s.format)
  unfold RtfReader.applyParaFormat
  rw [hat, if_neg hlt, Int.toNat_natCast, if_neg (fun hi => Nat.lt_irrefl _ (h.seen _ hi)), hformat]
  exact hshown

/-- What tokens of a paragraph put into the text, byte by byte with its format. -/
def RtfReader.typed : RtfReader → List Token → List (Byte × PWCharFormat)
  | _, []               => []
  | r, .byte c :: ts    => (readByte c).map (·, r.format) ++ (r.act (.byte c)).typed ts
  | r, .word w p :: ts  => (r.act (.word w p)).typed ts
  | r, .par :: ts       => (r.act .par).typed ts

def Shown.typeAll (s : Shown) (bytes : List (Byte × PWCharFormat)) : Shown :=
  { s with text := s.text ++ bytes.map Prod.fst, formats := s.formats ++ bytes.map Prod.snd }

theorem Shown.typeAll_nil (s : Shown) : s.typeAll [] = s := by
  simp [Shown.typeAll]

theorem Shown.type_typeAll (s : Shown) (t : List Byte) (f : PWCharFormat) (bytes : List (Byte × PWCharFormat)) :
    (s.type t f).typeAll bytes = s.typeAll (t.map (·, f) ++ bytes) := by
  have hfst : t.map (Prod.fst ∘ (·, f)) = t := map_id t
  have hsnd : t.map (Prod.snd ∘ (·, f)) = List.replicate t.length f := map_const'
  unfold Shown.type Shown.typeAll
  rw [map_append, map_append, map_map, map_map, hfst, hsnd, append_assoc, append_assoc]

def Token.Inner : Token → Prop
  | .par => False
  | .word w _ => isFormatWord w
  | .byte _ => True

theorem Token.Inner.formats {t : Token} (h : t.Inner) : t.Formats := by
  cases t with
  | byte c => trivial
  | word w p => exact h
  | par => trivial

def Token.SetsState : Token → Prop
  | .word w _ => isFormatWord w
  | _ => False

theorem Token.SetsState.inner {t : Token} (h : t.SetsState) : t.Inner := by
  cases t with
  | byte c => trivial
  | word w p => exact h
  | par => exact h

/-- **The tokens of a paragraph** type into the last paragraph of the document. -/
theorem RtfReader.At.tokens : ∀ {ts : List Token} {r : RtfReader} {pre : List Shown} {s : Shown}, r.At pre s →
    (∀ t ∈ ts, t.Inner) → (ts.foldl RtfReader.act r).At pre (s.typeAll (r.typed ts))
  | [], r, pre, s, h, _ => by
    rw [RtfReader.typed, Shown.typeAll_nil]
    exact h
  | .byte c :: ts, r, pre, s, h, hin => by
    rw [RtfReader.typed, ← Shown.type_typeAll]
    exact (h.byte c).tokens (fun t ht => hin t (mem_cons_of_mem _ ht))
  | .word w p :: ts, r, pre, s, h, hin =>
    RtfReader.At.tokens (r := r.act (.word w p)) ⟨h.shows, h.seen⟩ (fun t ht => hin t (mem_cons_of_mem _ ht))
  | .par :: ts, r, pre, s, h, hin => (hin .par mem_cons_self).elim

/-! ## The writer's tokens -/

def word (w : String) (param : Option Int) : Token := .word (chars w) param

def alignmentToken : PWAlignment → Token
  | .center  => word "qc" none
  | .right   => word "qr" none
  | .justify => word "qj" none
  | _        => word "ql" none

def twipsToken (w : String) (x : Rat) : Token := word w (some (toInt (x * 20 + 1 / 2)))

def paraTokens (fmt : PWParaFormat) : List Token :=
  alignmentToken fmt.alignment ::
    ((if fmt.indentLeft ≠ 0 then [twipsToken "li" fmt.indentLeft] else []) ++
    (if fmt.indentRight ≠ 0 then [twipsToken "ri" fmt.indentRight] else []) ++
    (if fmt.indentFirst ≠ 0 then [twipsToken "fi" fmt.indentFirst] else []) ++
    (if fmt.lineSpacing ≠ 1 then [word "sl" (some (toInt (fmt.lineSpacing * 240 + 1 / 2)))] else []) ++
    (if fmt.spaceBefore ≠ 0 then [twipsToken "sb" fmt.spaceBefore] else []) ++
    (if fmt.spaceAfter ≠ 0 then [twipsToken "sa" fmt.spaceAfter] else []) ++
    fmt.tabs.map (fun tab => twipsToken "tx" tab.x))

def charTokens (names : List FontFamily) (colors : List RgbColor) (prev f : PWCharFormat) : List Token :=
  (if prev.family ≠ f.family then [word "f" (some (names.idxOf f.family))] else []) ++
    (if prev.bold ≠ f.bold then [if f.bold then word "b" none else word "b" (some 0)] else []) ++
    (if prev.italic ≠ f.italic then [if f.italic then word "i" none else word "i" (some 0)] else []) ++
    (if prev.underline ≠ f.underline then [if f.underline then word "ul" none else word "ulnone" none] else []) ++
    (if prev.size ≠ f.size then [word "fs" (some (toInt (f.size * 2 + 1 / 2)))] else []) ++
    (if sameRgb f.color prev.color then [] else [word "cf" (some (colorNumber colors f.color))])

def segmentTokens (d : PWDocument) : PWCharFormat → List (PWCharFormat × List Byte) → List Token
  | _, []                  => []
  | prev, (f, piece) :: segs =>
    charTokens d.fontNames d.colors prev (d.resolve f) ++ piece.map Token.byte ++ segmentTokens d (d.resolve f) segs

def Para.tokens (d : PWDocument) (prev : PWCharFormat) (p : Para) : List Token :=
  paraTokens p.format ++ segmentTokens d prev p.segments ++ (if p.text = [] then [.byte (ascii ' ')] else [])

theorem flatMap_ite (c : Prop) [Decidable c] (t : Token) :
    (if c then [t] else []).flatMap Token.render = if c then t.render else [] := by
  split_ifs
  · exact append_nil _
  · rfl

theorem render_para (fmt : PWParaFormat) : writeParaFormat fmt = (paraTokens fmt).flatMap Token.render := by
  have halign : writeAlignment fmt.alignment = (alignmentToken fmt.alignment).render := by
    cases fmt.alignment <;> rfl
  have htabs : fmt.tabs.flatMap (fun tab => writeTwips (chars "\\tx") tab.x) =
      (fmt.tabs.map (fun tab => twipsToken "tx" tab.x)).flatMap Token.render := by
    rw [flatMap_map]
    rfl
  unfold writeParaFormat paraTokens
  simp only [flatMap_cons, flatMap_append, flatMap_ite, htabs, halign, append_assoc]
  rfl

theorem render_char (names : List FontFamily) (colors : List RgbColor) (prev f : PWCharFormat) :
    writeCharFormat names colors prev f = (charTokens names colors prev f).flatMap Token.render := by
  have hb : chars (if f.bold then "\\b " else "\\b0 ") = (if f.bold then word "b" none else word "b" (some 0)).render := by
    cases f.bold <;> rfl
  have hi : chars (if f.italic then "\\i " else "\\i0 ") = (if f.italic then word "i" none else word "i" (some 0)).render := by
    cases f.italic <;> rfl
  have hu : chars (if f.underline then "\\ul " else "\\ulnone ") = 
      (if f.underline then word "ul" none else word "ulnone" none).render := by
    cases f.underline <;> rfl
  have hc : (if sameRgb f.color prev.color then [] else chars "\\cf" ++ decimal (colorNumber colors f.color) ++ chars " ") =
      (if sameRgb f.color prev.color then [] else [word "cf" (some (colorNumber colors f.color))]).flatMap
        Token.render := by
    split_ifs
    · rfl
    · rw [flatMap_singleton]
      rfl
  unfold writeCharFormat charTokens
  simp only [flatMap_append, flatMap_ite, hb, hi, hu, hc]
  rfl

theorem render_segments (d : PWDocument) : ∀ (prev : PWCharFormat) (segs : List (PWCharFormat × List Byte)),
    writeSegments d prev segs = (segmentTokens d prev segs).flatMap Token.render
  | _, [] => rfl
  | prev, (f, piece) :: segs => by
    rw [writeSegments, segmentTokens, flatMap_append, flatMap_append, render_char,
      render_segments d (d.resolve f) segs, flatMap_map]
    rfl

theorem writeParas_cons (d : PWDocument) (prev : PWCharFormat) (p : Para) (ps : List Para) :
    writeParas d prev (p :: ps) = (p.tokens d prev).flatMap Token.render ++
      ((if ps = [] then [] else Token.par.render) ++ writeParas d (prevBehind d prev p.segments) ps) := by
  have hspace : (if p.text = [] then chars " " else []) =
      (if p.text = [] then [Token.byte (ascii ' ')] else []).flatMap Token.render := by
    rw [flatMap_ite]
    rfl
  rw [writeParas, Para.tokens, flatMap_append, flatMap_append, render_para, render_segments, hspace]
  simp only [append_assoc]
  rfl

theorem setsState_word {w : String} (h : isFormatWord (chars w)) (param : Option Int) : (word w param).SetsState := h

theorem mem_ite_singleton {c : Prop} [Decidable c] {t u : Token} (h : t ∈ if c then [u] else []) : t = u := by
  split_ifs at h
  · exact mem_singleton.1 h
  · exact absurd h not_mem_nil

theorem setsState_para {fmt : PWParaFormat} : ∀ t ∈ paraTokens fmt, t.SetsState := by
  intro t ht
  unfold paraTokens at ht
  simp only [mem_cons, mem_append, mem_map] at ht
  rcases ht with rfl | (((((h | h) | h) | h) | h) | h) | ⟨tab, -, rfl⟩
  · cases fmt.alignment <;> exact setsState_word (by decide) none
  all_goals first
    | rw [mem_ite_singleton h]
    | skip
  all_goals exact setsState_word (by decide) _

theorem setsState_char {names : List FontFamily} {colors : List RgbColor} {prev f : PWCharFormat} :
    ∀ t ∈ charTokens names colors prev f, t.SetsState := by
  intro t ht
  unfold charTokens at ht
  simp only [mem_append] at ht
  rcases ht with ((((h | h) | h) | h) | h) | h
  · exact mem_ite_singleton h ▸ setsState_word (by decide) _
  · rw [mem_ite_singleton h]
    cases f.bold <;> exact setsState_word (by decide) _
  · rw [mem_ite_singleton h]
    cases f.italic <;> exact setsState_word (by decide) _
  · rw [mem_ite_singleton h]
    cases f.underline <;> exact setsState_word (by decide) _
  · exact mem_ite_singleton h ▸ setsState_word (by decide) _
  · split_ifs at h
    · exact absurd h not_mem_nil
    · exact mem_singleton.1 h ▸ setsState_word (by decide) _

theorem inner_segments (d : PWDocument) : ∀ (prev : PWCharFormat) (segs : List (PWCharFormat × List Byte)),
    ∀ t ∈ segmentTokens d prev segs, t.Inner
  | _, [], t, ht => absurd ht not_mem_nil
  | prev, (f, piece) :: segs, t, ht => by
    rcases mem_append.1 ht with ht | ht
    · rcases mem_append.1 ht with ht | ht
      · exact (setsState_char t ht).inner
      · obtain ⟨c, -, rfl⟩ := mem_map.1 ht
        trivial
    · exact inner_segments d _ segs t ht

theorem Para.inner_tokens (d : PWDocument) (prev : PWCharFormat) (p : Para) : ∀ t ∈ p.tokens d prev, t.Inner := by
  intro t ht
  rcases mem_append.1 ht with ht | ht
  · rcases mem_append.1 ht with ht | ht
    · exact (setsState_para t ht).inner
    · exact inner_segments d _ _ t ht
  · rw [mem_ite_singleton ht]
    trivial

/-! ## The body read back -/

/-- What the reader makes of the paragraphs, from the state it is in behind those before. -/
def RtfReader.readBack (d : PWDocument) : RtfReader → PWCharFormat → List Para → List Shown
  | _, _, []        => []
  | r, prev, p :: ps =>
    { (({} : Shown).typeAll (r.typed (p.tokens d prev))) with
      format := ((p.tokens d prev).foldl RtfReader.act r).fState.paraFormat {} } ::
      RtfReader.readBack d ((p.tokens d prev).foldl RtfReader.act r).endParagraph (prevBehind d prev p.segments) ps

/-- The reader between the tokens of a body is at the depth of the outermost group. -/
structure RtfReader.Outermost (r : RtfReader) : Prop where
  body : r.InBody
  depth : r.fDepth = 1
  stack : r.fStack = []

theorem RtfReader.Outermost.endParagraph {r : RtfReader} (h : r.Outermost) : r.endParagraph.Outermost := by
  unfold RtfReader.endParagraph RtfReader.applyParaFormat
  dsimp only
  split_ifs <;> exact ⟨h.body, h.depth, h.stack⟩

theorem RtfReader.Outermost.tokens : ∀ (ts : List Token) {r : RtfReader}, r.Outermost →
    (ts.foldl RtfReader.act r).Outermost
  | [], _, h => h
  | .byte c :: ts, r, h => RtfReader.Outermost.tokens ts (r := r.act (.byte c)) ⟨h.body, h.depth, h.stack⟩
  | .word w p :: ts, r, h => RtfReader.Outermost.tokens ts (r := r.act (.word w p)) ⟨h.body, h.depth, h.stack⟩
  | .par :: ts, r, h => RtfReader.Outermost.tokens ts (r := r.act .par) h.endParagraph

/-- **The body read back.** -/
theorem reads_paras (d : PWDocument) {ps : List Para} {r : RtfReader} {pre : List Shown} (prev : PWCharFormat)
    (hne : ps ≠ []) (hr : r.Outermost) (hat : r.At pre {}) : ∃ (r' : RtfReader) (pre' : List Shown) (s' : Shown),
      Reads RtfReader.inGroup RtfReader.step r (writeParas d prev ps) r' ∧ r'.Outermost ∧ r'.At pre' s' ∧
        pre' ++ [{ s' with format := r'.fState.paraFormat s'.format }] = pre ++ r.readBack d prev ps := by
  induction ps generalizing r pre prev with
  | nil => exact absurd rfl hne
  | cons p ps ih =>
    have htokens := reads_tokens hr.body (fun t ht => (p.inner_tokens d prev t ht).formats)
    have hbehind := hat.tokens (p.inner_tokens d prev)
    have hout := RtfReader.Outermost.tokens (p.tokens d prev) hr
    rw [writeParas_cons, RtfReader.readBack]
    generalize (p.tokens d prev).foldl RtfReader.act r = r₁ at *
    cases ps with
    | nil => exact ⟨r₁, _, _, htokens.append (Reads.nil _), hout, hbehind, rfl⟩
    | cons q ps =>
      obtain ⟨r', pre', s', hreads, hr', hat', heq⟩ := ih (prevBehind d prev p.segments) (cons_ne_nil q ps)
        hout.endParagraph hbehind.endParagraph
      have hpar := reads_token hout.body (t := .par) trivial
      rw [if_neg (cons_ne_nil q ps)]
      refine ⟨r', pre', s', htokens.append (hpar.append hreads), hr', hat', ?_⟩
      rw [heq, append_assoc]
      rfl

end Writer
end Prose
