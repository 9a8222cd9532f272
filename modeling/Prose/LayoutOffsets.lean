import Prose.LayoutCache
/-!
# LayoutOffsets — which line an offset is on

`LineOfOffset` and the two caret moves.  After a layout, kept lines or not, the lines cut the document's offsets, because a paragraph
that has its id and its revision has its text.
-/
namespace Prose
namespace Writer

open List

open Relation (ReflTransGen)

variable {F : Type} [Points F] [DecidableLE F] [DecidableLT F] (fonts : Fonts F)

/-! ## The model -/

section
omit [Points F] [DecidableLE F] [DecidableLT F]

def lineStart (L : PWLayout F) (lineIndex : Nat) : Nat := ((L.fLines[lineIndex]?).map Line.startAbs).getD 0

def lineEndAbs (L : PWLayout F) (ps : List Para) (lineIndex : Nat) : Nat :=
  ((L.fLines[lineIndex + 1]?).map Line.startAbs).getD (docLength ps + 1)

def lineOfOffset (L : PWLayout F) (ps : List Para) (offset : Nat) : Nat :=
  if L.fLines.isEmpty then 0
  else min (Cuts.bisect (lineStart L) (lineEndAbs L ps) offset 0 ((L.fLines.length : Int) - 1)) (L.fLines.length - 1)

def nextLineStart (L : PWLayout F) (ps : List Para) (offset : Nat) : Nat :=
  let line := lineOfOffset L ps offset
  if line + 1 < L.fLines.length then lineStart L (line + 1) else lineEndAbs L ps line

def prevLineStart (L : PWLayout F) (ps : List Para) (offset : Nat) : Nat :=
  let line := lineOfOffset L ps offset
  if 0 < line then lineStart L (line - 1) else lineStart L 0

/-- Line `i` owns `offset`. -/
def LineOwns (L : PWLayout F) (ps : List Para) (i offset : Nat) : Prop :=
  ∃ l, L.fLines[i]? = some l ∧ l.startAbs ≤ offset ∧ offset < lineEndAbs L ps i

/-- Every offset is one line's, the search finds it, and the caret moves to the line behind and to the one in front. -/
structure LinesOwn (L : PWLayout F) (ps : List Para) : Prop where
  within : ∀ i offset, LineOwns L ps i offset → offset ≤ docLength ps
  one : ∀ offset, offset ≤ docLength ps → ∃! i, LineOwns L ps i offset
  found : ∀ i offset, LineOwns L ps i offset → lineOfOffset L ps offset = i
  next : ∀ i offset, LineOwns L ps i offset →
    (∀ l, L.fLines[i + 1]? = some l → nextLineStart L ps offset = l.startAbs) ∧
      (L.fLines[i + 1]? = none → nextLineStart L ps offset = docLength ps + 1)
  prev : ∀ i offset, LineOwns L ps i offset → ∀ l, L.fLines[i - 1]? = some l → prevLineStart L ps offset = l.startAbs

/-! ## Lines that cut the offsets -/

theorem owns_iff (L : PWLayout F) (ps : List Para) (i offset : Nat) :
    LineOwns L ps i offset ↔ Cuts.Owns (L.fLines.map Line.startAbs) (docLength ps + 1) i offset := by
  unfold LineOwns Cuts.Owns Cuts.stop lineEndAbs
  rw [getElem?_map, getElem?_map]
  cases L.fLines[i]? with
  | none => simp
  | some l => simp

theorem lineOfOffset_owns {L : PWLayout F} {ps : List Para} (h : Cuts.Covers (L.fLines.map Line.startAbs) (docLength ps + 1)) {offset : Nat}
    (ho : offset ≤ docLength ps) : LineOwns L ps (lineOfOffset L ps offset) offset := by
  have hpos : 0 < L.fLines.length := by
    have := h.lt_length
    rwa [length_map] at this
  have howns := h.bisect_owns (Nat.lt_succ_of_le ho)
  have hstart : (fun i => ((L.fLines.map Line.startAbs)[i]?).getD 0) = lineStart L := by
    funext i
    rw [getElem?_map]
    rfl
  have hends : Cuts.stop (L.fLines.map Line.startAbs) (docLength ps + 1) = lineEndAbs L ps := by
    funext i
    unfold Cuts.stop lineEndAbs
    rw [getElem?_map]
  rw [hstart, hends, length_map] at howns
  have howns := (owns_iff L ps _ offset).2 howns
  unfold lineOfOffset
  rw [if_neg (by rw [List.isEmpty_iff]; exact length_pos_iff.1 hpos)]
  -- what the search answers is a line
  have hlt : Cuts.bisect (lineStart L) (lineEndAbs L ps) offset 0 ((L.fLines.length : Int) - 1) < L.fLines.length := by
    obtain ⟨l, hl, -⟩ := howns
    exact (List.getElem?_eq_some_iff.1 hl).1
  rwa [Nat.min_eq_left (by omega)]

theorem linesOwn_of_covers {L : PWLayout F} {ps : List Para} (h : Cuts.Covers (L.fLines.map Line.startAbs) (docLength ps + 1)) :
    LinesOwn L ps := by
  have hwithin : ∀ i offset, LineOwns L ps i offset → offset ≤ docLength ps := fun i offset ho =>
    Nat.le_of_lt_succ (h.owns_lt ((owns_iff L ps i offset).1 ho))
  have hunique : ∀ i j offset, LineOwns L ps i offset → LineOwns L ps j offset → i = j := fun i j offset hi hj =>
    h.owns_unique ((owns_iff L ps i offset).1 hi) ((owns_iff L ps j offset).1 hj)
  have hfound : ∀ i offset, LineOwns L ps i offset → lineOfOffset L ps offset = i := fun i offset ho =>
    hunique _ _ offset (lineOfOffset_owns h (hwithin i offset ho)) ho
  refine ⟨hwithin, fun offset ho => ⟨_, lineOfOffset_owns h ho, fun i hi => (hfound i offset hi).symm⟩, hfound, ?_, ?_⟩
  · intro i offset ho
    unfold nextLineStart
    dsimp only
    rw [hfound i offset ho]
    constructor
    · intro l hl
      rw [if_pos (List.getElem?_eq_some_iff.1 hl).1, lineStart, hl]
      rfl
    · intro hnone
      rw [if_neg (Nat.not_lt.2 (List.getElem?_eq_none_iff.1 hnone)), lineEndAbs, hnone]
      rfl
  · intro i offset ho l hl
    unfold prevLineStart
    dsimp only
    rw [hfound i offset ho]
    by_cases hi : 0 < i
    · rw [if_pos hi, lineStart, hl]
      rfl
    · rw [if_neg hi, lineStart, ← Nat.eq_zero_of_not_pos hi, show i = i - 1 by omega, hl]
      rfl

end

omit [Points F] [DecidableLE F] [DecidableLT F] in
theorem LaidOut.linesOwn {ps : List Para} (hne : ps ≠ []) {L : PWLayout F} (h : LaidOut ps L) : LinesOwn L ps := by
  refine linesOwn_of_covers ?_
  rw [h.starts]
  exact h.rows.covers hne

/-! ## Documents -/

theorem loadParas_ids (bitmapOf : BitmapOf) (fDefault dflt : PWCharFormat) (nextId : Nat) (m : BMessage Rat) :
    (loadParas bitmapOf fDefault dflt nextId m).map Para.id = List.range' nextId (loadParas bitmapOf fDefault dflt nextId m).length := by
  unfold loadParas
  split
  · rfl
  · rw [map_map, length_map, length_zipIdx, List.range'_eq_map_range]
    refine ext_getElem (by simp) fun i hi hi' => ?_
    simp [loadPara]

theorem DocChange.tracks {bitmapOf : BitmapOf} {d d' : PWDocument} (h : DocChange bitmapOf d d') (hf : Fresh d.content) :
    Fresh d'.content ∧ Tracks d.content d'.content := by
  cases h with
  | call c hc => exact Evolves.tracks (call_evolves hc) hf
  | load plain m =>
    have hids := loadParas_ids bitmapOf d.fDefault (makeDefaultFormat plain) d.fNextParaId m
    have hmem : ∀ p ∈ (d.loadFromMessage bitmapOf plain m).fParas, d.fNextParaId ≤ p.id ∧
        p.id < (d.loadFromMessage bitmapOf plain m).fNextParaId := fun p hp => by
      have hp : p.id ∈ (loadParas bitmapOf d.fDefault (makeDefaultFormat plain) d.fNextParaId m).map Para.id := mem_map_of_mem hp
      rw [hids, mem_range'_1] at hp
      exact hp
    refine ⟨⟨?_, fun p hp => (hmem p hp).2⟩, Nat.le_add_right _ _, fun p hp => Or.inr (hmem p hp)⟩
    show ((loadParas bitmapOf d.fDefault (makeDefaultFormat plain) d.fNextParaId m).map Para.id).Nodup
    rw [hids]
    exact nodup_range'

theorem DocChange.ne_nil {bitmapOf : BitmapOf} {d d' : PWDocument} (h : DocChange bitmapOf d d') (hne : d.fParas ≠ []) :
    d'.fParas ≠ [] := by
  cases h with
  | call c hc => exact Evolves.ne_nil (call_evolves hc) hne
  | load plain m => exact loadFromMessage_ne_nil bitmapOf d plain m

theorem Document.sound {bitmapOf : BitmapOf} {d : PWDocument} (h : Document bitmapOf d) : Fresh d.content ∧ d.fParas ≠ [] := by
  obtain ⟨plain, h⟩ := h
  induction h with
  | refl =>
    refine ⟨⟨nodup_singleton _, fun p hp => ?_⟩, cons_ne_nil _ _⟩
    rw [mem_singleton.1 hp]
    exact Nat.lt_succ_self 1
  | tail _ hstep ih => exact ⟨(hstep.tracks ih.1).1, hstep.ne_nil ih.2⟩

/-! ## Every run -/

structure View.Ready (v : View F) : Prop where
  doc : ∀ d, v.doc = some d → Fresh d.content ∧ d.fParas ≠ []
  earlier : v.layout.fPrevValid = true → ∃ d c, v.doc = some d ∧ Fresh c ∧ Tracks c d.content ∧
    Summarized c.1 v.layout.fPrevSummaries.get? (places v.layout.fLines) ∧ LinesFit c.1 v.layout.fLines

omit [Points F] [DecidableLE F] [DecidableLT F] in
/-- A paragraph with the id and the revision of a summary is the paragraph that was laid out. -/
theorem View.Ready.reusable {v : View F} (h : v.Ready) {d : PWDocument} (hd : v.doc = some d) (hvalid : v.layout.fPrevValid = true) :
    Reusable d.fParas v.layout.fPrevSummaries v.layout.fLines := by
  obtain ⟨d', c, hd', hfresh, htracks, hsummaries, hfits⟩ := h.earlier hvalid
  cases hd'.symm.trans hd
  intro k s hs hrev hk
  obtain ⟨j, p, b, hp, hid, hprev, hb, htake⟩ := hsummaries _ s hs
  have hpara : paraAt d.fParas k = d.fParas[k] := paraAt_of_getElem? (getElem?_eq_getElem hk)
  have hsame : paraAt d.fParas k = p := by
    refine htracks.same hfresh (mem_of_getElem? hp) ?_ hid.symm (hrev.symm.trans hprev.symm)
    rw [hpara]
    exact getElem_mem hk
  have hstarts : ((v.layout.fLines.drop s.firstLine).take s.lineCount).map Line.startPara = b := by
    have := congrArg (List.map Prod.snd) htake
    rw [places, ← map_drop, ← map_take, map_map, map_map] at this
    exact this.trans (map_id b)
  rw [hsame, hstarts]
  refine ⟨hb, fun l hl => ?_⟩
  have hpara : l.para = j := by
    have hplace : (l.para, l.startPara) ∈ ((places v.layout.fLines).drop s.firstLine).take s.lineCount := by
      rw [places, ← map_drop, ← map_take]
      exact mem_map_of_mem hl
    rw [htake] at hplace
    obtain ⟨x, -, hx⟩ := mem_map.1 hplace
    exact (congrArg Prod.fst hx).symm
  have := hfits l (mem_of_mem_drop (mem_of_mem_take hl))
  rwa [hpara, paraAt_of_getElem? hp] at this

omit [Points F] [DecidableLE F] [DecidableLT F] in
theorem LaidOut.ready {d : PWDocument} {L : PWLayout F} (hd : Fresh d.content ∧ d.fParas ≠ []) (h : LaidOut d.fParas L) :
    View.Ready ⟨some d, L⟩ where
  doc e he := by
    cases he
    exact hd
  earlier _ := ⟨d, d.content, rfl, hd.1, Tracks.refl _, h.summaries, h.fits⟩

theorem View.Step.ready {bitmapOf : BitmapOf} {v w : View F} (h : View.Step fonts bitmapOf v w) (hv : v.Ready) : w.Ready := by
  cases h with
  | @change d d' L hc =>
    obtain ⟨hf, hne⟩ := hv.doc d rfl
    obtain ⟨hf', ht⟩ := hc.tracks hf
    refine ⟨fun e he => ?_, fun hvalid => ?_⟩
    · cases he
      exact ⟨hf', hc.ne_nil hne⟩
    · obtain ⟨e, c, he, hfresh, htracks, hlaid⟩ := hv.earlier hvalid
      cases he
      exact ⟨d', c, rfl, hfresh, htracks.trans ht, hlaid⟩
  | setDocument _ doc hdoc => exact ⟨fun d hd => (hdoc d hd).sound, fun hvalid => nomatch hvalid⟩
  | setPageSetup _ setup => exact ⟨hv.doc, hv.earlier⟩
  | setIncremental _ on => exact ⟨hv.doc, hv.earlier⟩
  | layout _ fuel hl =>
    cases hdoc : v.doc with
    | none =>
      rw [hdoc] at hl
      obtain ⟨lines, pages, rfl, -⟩ := assign_of hl
      exact ⟨fun d hd => (nomatch hd), fun hvalid => nomatch hvalid⟩
    | some d =>
      rw [hdoc] at hl
      exact (layout_of fonts (hv.reusable hdoc) hl).ready (hv.doc d hdoc)
  | layoutFull d L fuel hl => exact (layoutFull_of fonts hl).ready (hv.doc d rfl)

theorem View.Reachable.ready {bitmapOf : BitmapOf} {v : View F} (h : v.Reachable fonts bitmapOf) : v.Ready := by
  obtain ⟨doc, setup, hdoc, h⟩ := h
  induction h with
  | refl => exact ⟨fun d hd => (hdoc d hd).sound, fun hvalid => nomatch hvalid⟩
  | tail _ hstep ih => exact hstep.ready fonts ih

/-- **Behind a layout the lines own the document's offsets, and the search and the caret's moves find them**, whatever was done to the
document, the page and the layout before.  The layout comes to its end where every paragraph can be laid out. -/
theorem layout_linesOwn (bitmapOf : BitmapOf) {v : View F} (h : v.Reachable fonts bitmapOf) {d : PWDocument} (hd : v.doc = some d) :
    (∀ fuel L, layout fonts fuel v.layout (some d.fParas) = some L → LinesOwn L d.fParas) ∧
      ((∀ p ∈ d.fParas, p.LaysOut) → ∃ n, ∀ fuel, n ≤ fuel → (layout fonts fuel v.layout (some d.fParas)).isSome) := by
  have hready := h.ready fonts
  have hne := (hready.doc d hd).2
  refine ⟨fun fuel L hl => (layout_of fonts (hready.reusable hd) hl).linesOwn hne, fun hps => ?_⟩
  obtain ⟨n, hn⟩ := exists_enough d.fParas
  refine ⟨n + (docLength d.fParas + 2), fun fuel hfuel => ?_⟩
  exact layout_isSome fonts hne ⟨hn fuel (by omega), by omega⟩ hps (hready.reusable hd)

/-! ## Documents made by calls -/

theorem Reachable.document {plain : FontFamily} {d : PWDocument} (h : Reachable plain d) (bitmapOf : BitmapOf) : Document bitmapOf d := by
  refine ⟨plain, ?_⟩
  unfold Reachable at h
  induction h with
  | refl => exact ReflTransGen.refl
  | tail _ hc ih =>
    obtain ⟨c, hc⟩ := hc
    exact ih.tail (.call c hc)

theorem Para.Tiled.laysOut {p : Para} (h : p.Tiled) (hruns : p.runs ≠ []) : p.LaysOut where
  runs := hruns
  covers _ i hi := by
    obtain ⟨r, hr, h1, h2⟩ := h.exists_run (i : Int) (by omega) (by omega)
    exact ⟨r, hr, decide_eq_true ⟨h1, h2⟩⟩

theorem Reachable.laysOut {plain : FontFamily} {d : PWDocument} (h : Reachable plain d) : ∀ p ∈ d.fParas, p.LaysOut :=
  fun p hp => Para.Tiled.laysOut (h.tiled p hp) (h.runs p hp)

theorem layout_linesOwn_mergedBold : ∃ d, callAll (PWDocument.new noFamily) mergedBold = some d ∧
    (∀ fuel L, layout evenFonts fuel { fSetup := plainSetup } (some d.fParas) = some L → LinesOwn L d.fParas) ∧
    ∃ n, ∀ fuel, n ≤ fuel → (layout evenFonts fuel { fSetup := plainSetup } (some d.fParas)).isSome := by
  have hreach : Reachable noFamily _ := Calls.of_callAll mergedBold rfl
  have hown := layout_linesOwn evenFonts (fun _ _ _ => none)
    (v := ⟨some _, { fSetup := plainSetup }⟩) ⟨_, plainSetup, fun d hd => by
      cases hd
      exact hreach.document _, ReflTransGen.refl⟩ rfl
  exact ⟨_, rfl, hown.1, hown.2 hreach.laysOut⟩

end Writer
end Prose
