import Prose.WriterRtfTables
import Prose.WriterInvariants
/-!
# WriterRtfText — a written document read back, and its text

`loadRTF_writeRTF` says what a new document shows behind `PW_LoadRTF` of what `PW_WriteRTF` wrote.  Its text is the text
of the document but for the space that an empty paragraph is written with (`loadRTF_texts_iff`).
-/
namespace Prose
namespace Writer

open Scan List

/-- `prev` in front of the first paragraph. -/
def PWDocument.firstPrev (d : PWDocument) : PWCharFormat :=
  { d.fDefault with bold := false, italic := false, underline := false }

/-- The reader behind the header of `d`, about to write into `doc`. -/
def RtfReader.behindHeader (d doc : PWDocument) (font : Int) : RtfReader :=
  { RtfReader.start doc with
    fFonts := readFonts 0 SortedMap.empty d.fontNames
    fPendingFont := font
    fSeenAutoColor := true
    fColors := d.colors.map (fun c => { c with alpha := 255 }) }

theorem loop_end {r : RtfReader} (h : r.Outermost) {pre : List Shown} {s : Shown} (hat : r.At pre s) :
    ∃ r' : RtfReader, r.loop (chars "\x7d\n") = r' ∧ r'.At pre s ∧ r'.fState = r.fState := by
  have hstop : r.closeGroup.inGroup = false ∧ r.closeGroup.fDoc = r.fDoc ∧ r.closeGroup.fState = r.fState ∧
      r.closeGroup.fSeenAlignForPara = r.fSeenAlignForPara := by
    unfold RtfReader.closeGroup RtfReader.popState RtfReader.inGroup
    rw [h.depth, h.stack]
    dsimp only
    split_ifs <;> exact ⟨rfl, rfl, rfl, rfl⟩
  obtain ⟨hg, hdoc, hstate, hseen⟩ := hstop
  refine ⟨r.closeGroup, ?_, ⟨hdoc ▸ hat.shows, hseen ▸ hat.seen⟩, hstate⟩
  exact (reads_close h.body.1 _).trans (run_stop hg _)

/-- **A written document read back** into a new one. -/
theorem loadRTF_writeRTF (plain : FontFamily) {d : PWDocument} (hne : d.fParas ≠ [])
    (hp : ∀ n ∈ d.fontNames, Plain n.val) : ∃ d' font, (PWDocument.new plain).loadRTF d.writeRTF = some d' ∧
      shown d'.fParas =
        (RtfReader.behindHeader d (PWDocument.new plain) font).readBack d d.firstPrev d.fParas := by
  obtain ⟨font, hheader⟩ := reads_header d (PWDocument.new plain) hp
  have hout : (RtfReader.behindHeader d (PWDocument.new plain) font).Outermost := ⟨⟨rfl, rfl⟩, rfl, rfl⟩
  have hat : (RtfReader.behindHeader d (PWDocument.new plain) font).At [] {} :=
    ⟨shows_new plain, fun i hi => absurd hi not_mem_nil⟩
  obtain ⟨r', pre', s', hbody, hout', hat', heq⟩ := reads_paras d d.firstPrev hne hout hat
  obtain ⟨r'', hend, hat'', hstate⟩ := loop_end hout' hat'
  have hloop : (RtfReader.start (PWDocument.new plain)).loop d.writeRTF.tail = r'' := by
    have := (hheader.append hbody) (chars "\x7d\n")
    refine Eq.trans ?_ (this.trans hend)
    refine congrArg _ ?_
    unfold PWDocument.writeRTF
    simp only [append_assoc]
    rfl
  refine ⟨_, font, congrArg (fun r : RtfReader => some (r.applyParaFormat (r.fDoc.fParas.length - 1)).fDoc) hloop, ?_⟩
  rw [hat''.finish, hstate, heq, nil_append]

/-! ## Text -/

def Token.bytes : Token → List Byte
  | .byte c => readByte c
  | _ => []

theorem map_fst_typed : ∀ (ts : List Token) (r : RtfReader), (r.typed ts).map Prod.fst = ts.flatMap Token.bytes
  | [], _ => rfl
  | .byte c :: ts, r => by
    rw [RtfReader.typed, map_append, map_map, map_fst_typed ts, flatMap_cons]
    exact congrArg (· ++ _) (map_id _)
  | .word w p :: ts, r => map_fst_typed ts _
  | .par :: ts, r => map_fst_typed ts _

theorem advance_ne_nil (at' : Nat) : ∀ {runs : List PWRun}, runs ≠ [] → advance at' runs ≠ []
  | [_], _ => cons_ne_nil _ _
  | r :: r' :: rs, _ => by
    rw [advance]
    split_ifs
    · exact advance_ne_nil at' (cons_ne_nil r' rs)
    · exact cons_ne_nil _ _

theorem segEnd_spec (rEnd : Int) {at' len : Nat} (h : at' < len) :
    at' < (if min rEnd len ≤ at' then at' + 1 else (min rEnd len).toNat) ∧
      (if min rEnd len ≤ at' then at' + 1 else (min rEnd len).toNat) ≤ len := by
  split_ifs <;> omega

/-- **The pieces make up the text.** -/
theorem flatMap_segments {text : List Byte} : ∀ {fuel at' : Nat} {runs : List PWRun}, runs ≠ [] →
    text.length ≤ at' + fuel → (segments text fuel at' runs).flatMap Prod.snd = text.drop at'
  | 0, at', runs, _, h => (drop_eq_nil_of_le h).symm
  | fuel + 1, at', runs, hne, h => by
    rw [segments]
    by_cases hat : at' < text.length
    · rw [if_pos hat]
      obtain ⟨r, rs, hadv⟩ := exists_cons_of_ne_nil (advance_ne_nil at' hne)
      obtain ⟨hlt, hle⟩ := segEnd_spec r.rEnd hat
      rw [hadv]
      dsimp only
      generalize (if min r.rEnd text.length ≤ at' then at' + 1 else (min r.rEnd text.length).toNat) = segEnd at *
      have hskip : text.drop segEnd = (text.drop at').drop (segEnd - at') := by
        rw [drop_drop, Nat.add_sub_cancel' (Nat.le_of_lt hlt)]
      rw [flatMap_cons, flatMap_segments (cons_ne_nil r rs) (by omega), hskip]
      exact take_append_drop _ _
    · rw [if_neg hat]
      exact (drop_eq_nil_of_le (Nat.le_of_not_lt hat)).symm

theorem Para.flatMap_segments {p : Para} (h : p.runs ≠ []) : p.segments.flatMap Prod.snd = p.text :=
  Writer.flatMap_segments h (by omega)

theorem flatMap_bytes {ts : List Token} (h : ∀ t ∈ ts, t.SetsState) : ts.flatMap Token.bytes = [] := by
  refine flatMap_eq_nil_iff.2 (fun t ht => ?_)
  have := h t ht
  cases t with
  | word w p => rfl
  | byte c => exact this.elim
  | par => exact this.elim

theorem bytes_segmentTokens (d : PWDocument) : ∀ (prev : PWCharFormat) (segs : List (PWCharFormat × List Byte)),
    (segmentTokens d prev segs).flatMap Token.bytes = (segs.flatMap Prod.snd).flatMap readByte
  | _, [] => rfl
  | prev, (f, piece) :: segs => by
    rw [segmentTokens, flatMap_append, flatMap_append, flatMap_bytes setsState_char, bytes_segmentTokens d _ segs,
      flatMap_cons, flatMap_append, flatMap_map]
    rfl

/-- **The text of a paragraph read back.** -/
theorem readBack_texts (d : PWDocument) : ∀ (r : RtfReader) (prev : PWCharFormat) {ps : List Para},
    (∀ p ∈ ps, p.runs ≠ []) → (r.readBack d prev ps).map (·.text) =
      ps.map (fun p => if p.text = [] then [ascii ' '] else p.text.flatMap readByte)
  | r, prev, [], _ => rfl
  | r, prev, p :: ps, h => by
    rw [RtfReader.readBack, map_cons, map_cons,
      readBack_texts d _ _ (fun p hp => h p (mem_cons_of_mem _ hp))]
    refine congrArg (· :: _) ?_
    unfold Shown.typeAll Para.tokens
    dsimp only
    rw [nil_append, map_fst_typed, flatMap_append, flatMap_append, flatMap_bytes setsState_para,
      bytes_segmentTokens, Para.flatMap_segments (h p mem_cons_self), nil_append]
    by_cases htext : p.text = []
    · rw [if_pos htext, if_pos htext, htext]
      rfl
    · rw [if_neg htext, if_neg htext]
      exact append_nil _

theorem flatMap_readByte : ∀ {t : List Byte}, (∀ c ∈ t, c ≠ newline ∧ c ≠ ascii '\r' ∧ c ≠ kCellSep) →
    t.flatMap readByte = t
  | [], _ => rfl
  | c :: t, h => by
    obtain ⟨hn, hr, hs⟩ := h c mem_cons_self
    have hc : readByte c = [c] := by
      unfold readByte
      rw [if_neg (by rintro (h | h) <;> contradiction), if_neg hs]
    rw [flatMap_cons, hc, flatMap_readByte (fun c hc => h c (mem_cons_of_mem _ hc))]
    rfl

/-- **The text comes back** just if no paragraph is empty: an empty one is written with a space, which is read as
text. -/
theorem loadRTF_texts_iff (plain : FontFamily) {d : PWDocument} (h : d.WellFormed)
    (htext : ∀ p ∈ d.fParas, ∀ c ∈ p.text, c ≠ kCellSep ∧ c ≠ ascii '\r')
    (hp : ∀ n ∈ d.fontNames, Plain n.val) :
    (∃ d', (PWDocument.new plain).loadRTF d.writeRTF = some d' ∧ d'.fParas.map (·.text) = d.fParas.map (·.text)) ↔
      ∀ p ∈ d.fParas, p.text ≠ [] := by
  obtain ⟨d', font, hload, hshown⟩ := loadRTF_writeRTF plain h.ne_nil hp
  have htexts : d'.fParas.map (·.text) =
      d.fParas.map (fun p => if p.text = [] then [ascii ' '] else p.text.flatMap readByte) := by
    rw [← readBack_texts d _ _ h.runs, ← hshown, shown, map_map]
    rfl
  constructor
  · rintro ⟨e, he, heq⟩ p hp' hempty
    obtain rfl := Option.some.inj (hload.symm.trans he)
    rw [htexts] at heq
    have hpt := map_inj_left.1 heq p hp'
    rw [if_pos hempty, hempty] at hpt
    exact cons_ne_nil _ _ hpt
  · intro hne
    refine ⟨d', hload, ?_⟩
    rw [htexts]
    refine map_congr_left (fun p hp' => ?_)
    rw [if_neg (hne p hp')]
    refine flatMap_readByte (fun c hc => ⟨?_, (htext p hp' c hc).2, (htext p hp' c hc).1⟩)
    rintro rfl
    exact h.oneLine p hp' hc

theorem loadRTF_texts_iff_typed : ∃ d', (PWDocument.new noFamily).loadRTF
    ((PWDocument.new noFamily).insert 0 [byteA, byteB] none).writeRTF = some d' ∧
      d'.fParas.map (·.text) = ((PWDocument.new noFamily).insert 0 [byteA, byteB] none).fParas.map (·.text) :=
  (loadRTF_texts_iff noFamily
    (Reachable.wellFormed (Relation.ReflTransGen.single ⟨.edit (.insert 0 [byteA, byteB] none), rfl⟩))
    (by decide +kernel) (by decide +kernel)).2 (by decide)

/-- A document nobody has written into. -/
theorem loadRTF_adds_space : ¬ ∀ (plain : FontFamily) (d : PWDocument), Reachable plain d →
    (∀ p ∈ d.fParas, ∀ c ∈ p.text, c ≠ kCellSep ∧ c ≠ ascii '\r') →
    ∃ d', (PWDocument.new plain).loadRTF d.writeRTF = some d' ∧ d'.fParas.map (·.text) = d.fParas.map (·.text) := by
  intro h
  obtain ⟨d', hload, htexts⟩ := h noFamily (PWDocument.new noFamily) Relation.ReflTransGen.refl (by decide +kernel)
  have hspace : ((PWDocument.new noFamily).loadRTF (PWDocument.new noFamily).writeRTF).map
      (fun d => d.fParas.map (·.text)) = some [[ascii ' ']] := by decide
  rw [hload, Option.map_some, htexts] at hspace
  exact absurd hspace (by decide)

end Writer
end Prose
