import Mathlib.Data.List.SplitBy
import Prose.Cuts
import Prose.LayoutPages
import Prose.WriterMessage
import Prose.WriterTracking
/-!
# LayoutCache — `Layout` and `LayoutFull`

A full layout measures every paragraph.  The next one keeps the lines of a paragraph that has its id and its revision: what it takes them
for is what `BuildSummaries` has noted of each row of lines.
-/
namespace Prose
namespace Writer

open List

open Relation (ReflTransGen)

variable {F : Type} [Points F] [DecidableLE F] [DecidableLT F] (fonts : Fonts F)

/-! ## The model -/

def cacheAbsoluteStarts (L : PWLayout F) (ps : List Para) : PWLayout F :=
  { L with fLines := L.fLines.map fun l => { l with startAbs := paraStart ps l.para + l.startPara } }

/-- What is noted of rows of lines, each given by the paragraph its lines name; the first one starts at line `first`. -/
def summarize (ps : List Para) : Nat → List (List Nat) → List ParaSummary
  | _, []          => []
  | first, g :: gs =>
    let p := paraAt ps (g.head?.getD 0)
    ⟨p.id, p.revision, first, g.length⟩ :: summarize ps (first + g.length) gs

def pruneRowCache (L : PWLayout F) : PWLayout F := { L with fRows := L.fRows.filter fun id => decide (id ∈ L.fLiveParaIds) }

def buildSummaries (L : PWLayout F) (ps : List Para) : PWLayout F :=
  let all := summarize ps 0 ((L.fLines.map Line.para).splitBy (· == ·))
  pruneRowCache { L with
    fPrevSummaries := all.foldl (fun m s => m.set s.paraId s) SortedMap.empty
    fLiveParaIds := all.map ParaSummary.paraId
    fPrevEpoch := L.fSetupEpoch }

/-- A turn of the loop of `LayoutFull`. -/
def measure (fuel : Nat) (ps : List Para) (L : PWLayout F) (para : Nat) : Option (PWLayout F) :=
  layoutParagraph fonts fuel { L with fMeasuredParas := L.fMeasuredParas + 1 } ps para

/-- The lines a summary names, now those of `para`. -/
def reuse (old : List (Line F)) (L : PWLayout F) (para : Nat) (s : ParaSummary) : PWLayout F :=
  { L with fLines := L.fLines ++ ((old.drop s.firstLine).take s.lineCount).map fun l => { l with para := para } }

/-- A turn of the loop of `Layout`. -/
def reuseOrMeasure (fuel : Nat) (ps : List Para) (old : List (Line F)) (L : PWLayout F) (para : Nat) : Option (PWLayout F) :=
  match L.fPrevSummaries.get? (paraAt ps para).id with
  | some s =>
    if s.revision = (paraAt ps para).revision ∧ s.firstLine + s.lineCount ≤ old.length then some (reuse old L para s)
    else measure fonts fuel ps L para
  | none => measure fonts fuel ps L para

def settleLines (fuel : Nat) (ps : List Para) (L : PWLayout F) : Option (PWLayout F) :=
  (assignLinesToPages fuel (cacheAbsoluteStarts L ps) ps).map (buildSummaries · ps)

def layoutFull (fuel : Nat) (L : PWLayout F) (ps : List Para) : Option (PWLayout F) := do
  let L ← (List.range ps.length).foldlM (measure fonts fuel ps) { L with fLines := [], fRows := SortedMap.empty, fMeasuredParas := 0 }
  (settleLines fuel ps L).map fun L => { L with fPrevValid := true }

def layout (fuel : Nat) (L : PWLayout F) : Option (List Para) → Option (PWLayout F)
  | none =>
    assignLinesToPages fuel { L with fLines := [], fRows := SortedMap.empty, fPrevSummaries := SortedMap.empty, fPrevValid := false } []
  | some ps =>
    if !L.fIncremental ∨ !L.fPrevValid ∨ L.fPrevEpoch ≠ L.fSetupEpoch then layoutFull fonts fuel L ps
    else
      ((List.range ps.length).foldlM (reuseOrMeasure fonts fuel ps L.fLines) { L with fLines := [], fMeasuredParas := 0 }).bind
        (settleLines fuel ps)

def setPageSetup (L : PWLayout F) (setup : PWPageSetup F) : PWLayout F :=
  let same := setup.pageWidth == L.fSetup.pageWidth && setup.pageHeight == L.fSetup.pageHeight &&
    setup.marginLeft == L.fSetup.marginLeft && setup.marginRight == L.fSetup.marginRight &&
    setup.marginTop == L.fSetup.marginTop && setup.marginBottom == L.fSetup.marginBottom
  { L with fSetup := setup, fSetupEpoch := if same then L.fSetupEpoch else L.fSetupEpoch + 1 }

/-! ## A layout and its document -/

inductive DocChange (bitmapOf : BitmapOf) : PWDocument → PWDocument → Prop
  | call {d d' : PWDocument} (c : Call) : d.call c = some d' → DocChange bitmapOf d d'
  | load (d : PWDocument) (plain : FontFamily) (m : BMessage Rat) : DocChange bitmapOf d (d.loadFromMessage bitmapOf plain m)

def Document (bitmapOf : BitmapOf) (d : PWDocument) : Prop := ∃ plain, ReflTransGen (DocChange bitmapOf) (PWDocument.new plain) d

structure View (F : Type) where
  doc : Option PWDocument
  layout : PWLayout F

variable (bitmapOf : BitmapOf)

inductive View.Step : View F → View F → Prop
  | change {d d' : PWDocument} (L : PWLayout F) : DocChange bitmapOf d d' → Step ⟨some d, L⟩ ⟨some d', L⟩
  | setDocument (v : View F) (doc : Option PWDocument) : (∀ d, doc = some d → Document bitmapOf d) →
      Step v ⟨doc, { v.layout with fPrevValid := false }⟩
  | setPageSetup (v : View F) (setup : PWPageSetup F) : Step v { v with layout := setPageSetup v.layout setup }
  | setIncremental (v : View F) (on : Bool) : Step v { v with layout := { v.layout with fIncremental := on } }
  | layout (v : View F) (fuel : Nat) {L : PWLayout F} :
      Writer.layout fonts fuel v.layout (v.doc.map PWDocument.fParas) = some L → Step v { v with layout := L }
  | layoutFull (d : PWDocument) (L : PWLayout F) (fuel : Nat) {L' : PWLayout F} : layoutFull fonts fuel L d.fParas = some L' →
      Step ⟨some d, L⟩ ⟨some d, L'⟩

def View.Reachable (v : View F) : Prop :=
  ∃ doc setup, (∀ d, doc = some d → Document bitmapOf d) ∧ ReflTransGen (View.Step fonts bitmapOf) ⟨doc, { fSetup := setup }⟩ v

/-! ## Rows of lines -/

section
omit [Points F] [DecidableLE F] [DecidableLT F]

def places (ls : List (Line F)) : List (Nat × Nat) := ls.map fun l => (l.para, l.startPara)

theorem places_append (ls ls' : List (Line F)) : places (ls ++ ls') = places ls ++ places ls' := map_append

theorem places_of_para (para : Nat) {ls : List (Line F)} (h : ∀ l ∈ ls, l.para = para) :
    places ls = (ls.map Line.startPara).map (para, ·) := by
  unfold places
  rw [map_map]
  refine map_congr_left fun l hl => ?_
  rw [h l hl]
  rfl

theorem places_moved (para : Nat) (ls : List (Line F)) :
    places (ls.map fun l => { l with para := para }) = (ls.map Line.startPara).map (para, ·) := by
  unfold places
  rw [map_map, map_map]
  rfl

def LinesFit (ps : List Para) (ls : List (Line F)) : Prop := ∀ l ∈ ls, Fits (paraAt ps l.para) l

theorem LinesFit.append {ps : List Para} {ls ls' : List (Line F)} (h : LinesFit ps ls) (para : Nat)
    (h' : ∀ l ∈ ls', l.para = para ∧ Fits (paraAt ps para) l) : LinesFit ps (ls ++ ls') := by
  intro l hl
  rcases mem_append.1 hl with hl | hl
  · exact h l hl
  · obtain ⟨hpara, hfits⟩ := h' l hl
    rwa [hpara]

theorem LinesFit.placed {ps : List Para} {ls ls' : List (Line F)} (h : LinesFit ps ls) (hplaced : Placed ls ls') : LinesFit ps ls' := by
  intro l' hl'
  obtain ⟨i, hi, rfl⟩ := mem_iff_getElem.1 hl'
  have hi' : i < ls.length := by rwa [hplaced.length_eq]
  obtain ⟨y, hy⟩ := List.Forall₂.get hplaced hi' hi
  rw [get_eq_getElem, get_eq_getElem] at hy
  have hfits := h _ (getElem_mem hi')
  rw [hy]
  exact ⟨hfits.within, hfits.table, hfits.ends⟩

theorem placed_places {ls ls' : List (Line F)} (h : Placed ls ls') : places ls' = places ls ∧
    ls'.map Line.startAbs = ls.map Line.startAbs := by
  unfold Placed at h
  induction h with
  | nil => exact ⟨rfl, rfl⟩
  | cons hl _ ih =>
    obtain ⟨y, rfl⟩ := hl
    exact ⟨congrArg (_ :: ·) ih.1, congrArg (_ :: ·) ih.2⟩

end

/-- Where a paragraph's lines start: at 0, each one further on, none behind the text. -/
abbrev StartsOf (p : Para) (b : List Nat) : Prop := Cuts.Covers b (p.text.length + 1)

/-- The lines of the paragraphs from `k` on, given by where they start. -/
def rows : Nat → List (List Nat) → List (Nat × Nat)
  | _, []      => []
  | k, b :: bs => b.map (k, ·) ++ rows (k + 1) bs

theorem rows_concat : ∀ (k : Nat) (bs : List (List Nat)) (b : List Nat), rows k (bs ++ [b]) = rows k bs ++ b.map (k + bs.length, ·)
  | k, [], b => by simp [rows]
  | k, c :: bs, b => by
    rw [cons_append, rows, rows, rows_concat (k + 1) bs b, append_assoc, length_cons, Nat.add_assoc, Nat.add_comm 1]

/-- The lines of the first `n` paragraphs. -/
def InRows (ps : List Para) (n : Nat) (xs : List (Nat × Nat)) : Prop :=
  ∃ bs, bs.length = n ∧ (∀ k b, bs[k]? = some b → StartsOf (paraAt ps k) b) ∧ xs = rows 0 bs

theorem InRows.nil (ps : List Para) : InRows ps 0 [] := 
  ⟨[], rfl, fun _ _ h => (nomatch h), rfl⟩

theorem InRows.next {ps : List Para} {n : Nat} {xs : List (Nat × Nat)} (h : InRows ps n xs) {b : List Nat} (hb : StartsOf (paraAt ps n) b) :
    InRows ps (n + 1) (xs ++ b.map (n, ·)) := by
  obtain ⟨bs, rfl, hall, rfl⟩ := h
  refine ⟨bs ++ [b], by rw [length_append]; rfl, fun k c hk => ?_, by rw [rows_concat, Nat.zero_add]⟩
  rcases Nat.lt_trichotomy k bs.length with hlt | rfl | hgt
  · rw [getElem?_append_left hlt] at hk
    exact hall k c hk
  · rw [getElem?_append_right (Nat.le_refl _), Nat.sub_self] at hk
    rwa [← Option.some.inj hk]
  · rw [getElem?_eq_none (by rw [length_append]; exact hgt)] at hk
    cases hk

/-! ## A paragraph measured -/

omit [Points F] [DecidableLE F] [DecidableLT F] in
theorem LinesOk.starts {p : Para} {new : List (Line F)} (h : LinesOk p.text new) : StartsOf p (new.map Line.startPara) where
  head := by
    rw [head?_map]
    cases hnew : new with
    | nil => exact absurd hnew h.ne
    | cons l ls =>
      show some l.startPara = some 0
      rw [h.start l (by rw [hnew]; rfl)]
  increase := pairwise_map.2 h.increase
  within s hs := by
    obtain ⟨l, hl, rfl⟩ := mem_map.1 hs
    have := h.within l hl
    omega

theorem measure_of {fuel : Nat} {ps : List Para} {para : Nat} {L L' : PWLayout F} (h : measure fonts fuel ps L para = some L') :
    ∃ new, StartsOf (paraAt ps para) (new.map Line.startPara) ∧ L'.fLines = L.fLines ++ new ∧
      (∀ l ∈ new, l.para = para ∧ Fits (paraAt ps para) l) ∧ L'.fPrevSummaries = L.fPrevSummaries := by
  have hfits := @layoutParagraph_fits F _ _ _ fonts fuel ps para _ rfl _ _ h
  obtain ⟨new, rows, rfl, hlines, hpara, -⟩ := layoutParagraph_lines fonts rfl h
  exact ⟨new, hlines.starts, rfl, fun l hl => ⟨hpara l hl, hfits rfl l hl⟩, rfl⟩

/-! ## Summaries -/

/-- What the summaries name: paragraphs of `ps`, as they are, and their lines among `ls`. -/
def Summarized (ps : List Para) (summary : Nat → Option ParaSummary) (xs : List (Nat × Nat)) : Prop :=
  ∀ id s, summary id = some s → ∃ k p b, ps[k]? = some p ∧ p.id = id ∧ p.revision = s.revision ∧ StartsOf p b ∧
    (xs.drop s.firstLine).take s.lineCount = b.map (k, ·)

theorem rows_fst : ∀ (k : Nat) (bs : List (List Nat)), (rows k bs).map Prod.fst = ((bs.zipIdx k).map fun b => b.1.map fun _ => b.2).flatten
  | _, [] => rfl
  | k, b :: bs => by
    rw [rows, map_append, map_map, rows_fst (k + 1) bs]
    rfl

theorem splitBy_rows (k : Nat) {bs : List (List Nat)} (hne : ∀ b ∈ bs, b ≠ []) :
    ((rows k bs).map Prod.fst).splitBy (· == ·) = (bs.zipIdx k).map fun b => b.1.map fun _ => b.2 := by
  rw [rows_fst]
  refine splitBy_flatten (fun hnil => ?_) (fun g hg => ?_) ?_
  · obtain ⟨b, hb, hnil⟩ := mem_map.1 hnil
    exact hne b.1 (fst_mem_of_mem_zipIdx hb) (map_eq_nil_iff.1 hnil)
  · obtain ⟨b, -, rfl⟩ := mem_map.1 hg
    refine List.Pairwise.isChain (pairwise_map.2 (pairwise_of_forall fun _ _ => ?_))
    exact beq_self_eq_true b.2
  · rw [isChain_map, isChain_iff_getElem]
    intro i hi
    rw [length_zipIdx] at hi
    have hmem : ∀ j (hj : j < bs.length), bs[j] ≠ [] := fun j hj => hne _ (getElem_mem hj)
    simp only [getElem_zipIdx]
    refine ⟨by simpa using hmem i (Nat.lt_of_succ_lt hi), by simpa using hmem (i + 1) hi, ?_⟩
    simp

theorem summarize_rows (ps : List Para) : ∀ (k first : Nat) (bs : List (List Nat)), (∀ b ∈ bs, b ≠ []) →
    ∀ s ∈ summarize ps first ((bs.zipIdx k).map fun b => b.1.map fun _ => b.2), ∃ j b i, bs[j]? = some b ∧
      s.paraId = (paraAt ps (k + j)).id ∧ s.revision = (paraAt ps (k + j)).revision ∧ s.firstLine = first + i ∧
      ((rows k bs).drop i).take s.lineCount = b.map (k + j, ·)
  | _, _, [], _, s, hs => absurd hs not_mem_nil
  | k, first, b :: bs, hne, s, hs => by
    have hb : b ≠ [] := hne b mem_cons_self
    rw [zipIdx_cons, map_cons, summarize] at hs
    rcases mem_cons.1 hs with rfl | hs
    · have hhead : ((b.map fun _ => k).head?).getD 0 = k := by
        cases b with
        | nil => exact absurd rfl hb
        | cons x b => rfl
      refine ⟨0, b, 0, rfl, ?_, ?_, rfl, ?_⟩
      · dsimp only
        rw [hhead]
        rfl
      · dsimp only
        rw [hhead]
        rfl
      · dsimp only
        rw [length_map, rows, drop_zero, take_left' (length_map _)]
        rfl
    · obtain ⟨j, c, i, hj, hid, hrev, hfirst, htake⟩ := summarize_rows ps (k + 1) _ bs (fun c hc => hne c (mem_cons_of_mem b hc)) s hs
      have hk : k + 1 + j = k + (j + 1) := by omega
      rw [hk] at hid hrev htake
      refine ⟨j + 1, c, b.length + i, hj, hid, hrev, ?_, ?_⟩
      · rw [hfirst]
        dsimp only
        rw [length_map, Nat.add_assoc]
      · rw [rows, ← drop_drop, drop_left' (length_map _)]
        exact htake

omit [Points F] [DecidableLE F] [DecidableLT F] in
theorem buildSummaries_of {ps : List Para} {L : PWLayout F} (h : InRows ps ps.length (places L.fLines)) :
    Summarized ps (buildSummaries L ps).fPrevSummaries.get? (places L.fLines) := by
  obtain ⟨bs, hlength, hall, hrows⟩ := h
  have hne : ∀ b ∈ bs, b ≠ [] := fun b hb => by
    obtain ⟨k, hk⟩ := mem_iff_getElem?.1 hb
    exact length_pos_iff.1 (hall k b hk).lt_length
  have hparas : L.fLines.map Line.para = (rows 0 bs).map Prod.fst := by
    rw [← hrows, places, map_map]
    rfl
  intro id s hs
  unfold buildSummaries pruneRowCache at hs
  dsimp only at hs
  rw [hparas, splitBy_rows 0 hne] at hs
  obtain ⟨hmem, rfl⟩ | hnone := SortedMap.mem_of_get?_foldl_set ParaSummary.paraId hs
  · obtain ⟨j, b, i, hj, hid, hrev, hfirst, htake⟩ := summarize_rows ps 0 0 bs hne s hmem
    rw [Nat.zero_add] at hid hrev hfirst htake
    have hlt : j < ps.length := by
      rw [← hlength]
      exact (List.getElem?_eq_some_iff.1 hj).1
    have hp : paraAt ps j = ps[j] := paraAt_of_getElem? (getElem?_eq_getElem hlt)
    refine ⟨j, ps[j], b, getElem?_eq_getElem hlt, ?_, ?_, ?_, ?_⟩
    · rw [hid, hp]
    · rw [hrev, hp]
    · rw [← hp]
      exact hall j b hj
    · rw [hrows, hfirst]
      exact htake
  · cases hnone

/-! ## A layout -/

/-- What a layout of `ps` leaves. -/
structure LaidOut (ps : List Para) (L : PWLayout F) : Prop where
  rows : InRows ps ps.length (places L.fLines)
  starts : L.fLines.map Line.startAbs = (places L.fLines).map fun x => paraStart ps x.1 + x.2
  summaries : Summarized ps L.fPrevSummaries.get? (places L.fLines)
  fits : LinesFit ps L.fLines

omit [DecidableLE F] in
theorem settleLines_of {fuel : Nat} {ps : List Para} {L L' : PWLayout F} (hrows : InRows ps ps.length (places L.fLines))
    (hfits : LinesFit ps L.fLines) (h : settleLines fuel ps L = some L') : LaidOut ps L' := by
  obtain ⟨L₁, hassign, rfl⟩ := Option.map_eq_some_iff.1 h
  obtain ⟨lines, pages, rfl, hplaced⟩ := assign_of hassign
  obtain ⟨hplaces, hstarts⟩ := placed_places hplaced
  have hcached : places (cacheAbsoluteStarts L ps).fLines = places L.fLines := by
    unfold cacheAbsoluteStarts places
    rw [map_map]
    rfl
  rw [hcached] at hplaces
  have hsummaries := buildSummaries_of (L := { cacheAbsoluteStarts L ps with fLines := lines, fPages := pages }) (by rwa [hplaces])
  refine ⟨?_, ?_, hsummaries, ?_⟩
  · show InRows ps ps.length (places lines)
    rwa [hplaces]
  · show lines.map Line.startAbs = _
    rw [hstarts]
    show _ = (places lines).map _
    rw [hplaces]
    unfold cacheAbsoluteStarts places
    rw [map_map, map_map]
    rfl
  · refine LinesFit.placed (fun l hl => ?_) hplaced
    obtain ⟨m, hm, rfl⟩ := mem_map.1 hl
    exact ⟨(hfits m hm).within, (hfits m hm).table, (hfits m hm).ends⟩

/-- In the middle of a layout's loop, `n` paragraphs done. -/
structure Filled (ps : List Para) (summaries : SortedMap Nat ParaSummary) (n : Nat) (L : PWLayout F) : Prop where
  rows : InRows ps n (places L.fLines)
  fits : LinesFit ps L.fLines
  summaries : L.fPrevSummaries = summaries

omit [Points F] [DecidableLE F] [DecidableLT F] in
theorem Filled.start (ps : List Para) {summaries : SortedMap Nat ParaSummary} {L : PWLayout F} (hnil : L.fLines = [])
    (hsame : L.fPrevSummaries = summaries) : Filled ps summaries 0 L where
  rows := by
    rw [hnil]
    exact InRows.nil ps
  fits l hl := by
    rw [hnil] at hl
    exact absurd hl not_mem_nil
  summaries := hsame

theorem Filled.measure {fuel : Nat} {ps : List Para} {summaries : SortedMap Nat ParaSummary} {n : Nat} {L L' : PWLayout F}
    (h : Filled ps summaries n L) (hm : measure fonts fuel ps L n = some L') : Filled ps summaries (n + 1) L' := by
  obtain ⟨new, hstarts, hlines, hnew, hsame⟩ := measure_of fonts hm
  refine ⟨?_, ?_, hsame.trans h.summaries⟩
  · rw [hlines, places_append, places_of_para n fun l hl => (hnew l hl).1]
    exact h.rows.next hstarts
  · rw [hlines]
    exact h.fits.append n hnew

/-- What the summaries say of the lines that are there is so for every paragraph they are used for. -/
def Reusable (ps : List Para) (summaries : SortedMap Nat ParaSummary) (old : List (Line F)) : Prop :=
  ∀ k s, summaries.get? (paraAt ps k).id = some s → s.revision = (paraAt ps k).revision → k < ps.length →
    StartsOf (paraAt ps k) (((old.drop s.firstLine).take s.lineCount).map Line.startPara) ∧
      ∀ l ∈ (old.drop s.firstLine).take s.lineCount, Fits (paraAt ps k) l

theorem Filled.reuseOrMeasure {fuel : Nat} {ps : List Para} {summaries : SortedMap Nat ParaSummary} {old : List (Line F)}
    (hold : Reusable ps summaries old) {n : Nat} {L L' : PWLayout F} (h : Filled ps summaries n L) (hn : n < ps.length)
    (hm : reuseOrMeasure fonts fuel ps old L n = some L') : Filled ps summaries (n + 1) L' := by
  unfold Writer.reuseOrMeasure at hm
  split at hm
  · rename_i s hs
    split at hm
    · rename_i hsame
      rw [h.summaries] at hs
      rw [← Option.some.inj hm]
      obtain ⟨hstarts, hfits⟩ := hold n s hs hsame.1 hn
      refine ⟨?_, h.fits.append n fun l hl => ?_, h.summaries⟩
      · unfold reuse
        dsimp only
        rw [places_append, places_moved]
        exact h.rows.next hstarts
      · obtain ⟨m, hm, rfl⟩ := mem_map.1 hl
        exact ⟨rfl, (hfits m hm).within, (hfits m hm).table, (hfits m hm).ends⟩
    · exact h.measure fonts hm
  · exact h.measure fonts hm

theorem layoutFull_of {fuel : Nat} {ps : List Para} {L L' : PWLayout F} (h : layoutFull fonts fuel L ps = some L') : LaidOut ps L' := by
  obtain ⟨L₁, hfold, h⟩ := Option.bind_eq_some_iff.1 h
  obtain ⟨L₂, hsettle, rfl⟩ := Option.map_eq_some_iff.1 h
  have hstart : Filled ps L.fPrevSummaries 0 { L with fLines := [], fRows := SortedMap.empty, fMeasuredParas := 0 } :=
    Filled.start ps rfl rfl
  have hfilled := Loops.forRange_inv (Filled ps L.fPrevSummaries) (fun _ _ _ _ h hm => h.measure fonts hm) hstart hfold
  obtain ⟨hrows, hstarts, hsummaries, hfits⟩ := settleLines_of hfilled.rows hfilled.fits hsettle
  exact ⟨hrows, hstarts, hsummaries, hfits⟩

/-- **What a layout leaves**, if what the summaries say still holds where it reads them. -/
theorem layout_of {fuel : Nat} {ps : List Para} {L L' : PWLayout F} (hold : L.fPrevValid = true → Reusable ps L.fPrevSummaries L.fLines)
    (h : layout fonts fuel L (some ps) = some L') : LaidOut ps L' := by
  rw [layout] at h
  split at h
  · exact layoutFull_of fonts h
  rename_i hkeep
  obtain ⟨L₁, hfold, hsettle⟩ := Option.bind_eq_some_iff.1 h
  have hvalid : L.fPrevValid = true := by
    rw [not_or, not_or] at hkeep
    simpa using hkeep.2.1
  have hstart : Filled ps L.fPrevSummaries 0 { L with fLines := [], fMeasuredParas := 0 } := Filled.start ps rfl rfl
  have hfilled := Loops.forRange_inv (Filled ps L.fPrevSummaries) (fun _ _ _ hk h hm => h.reuseOrMeasure fonts (hold hvalid) hk hm)
    hstart hfold
  exact settleLines_of hfilled.rows hfilled.fits hsettle

/-! ## The lines and the document's offsets -/

theorem paraStart_succ {ps : List Para} {k : Nat} {p : Para} (hp : ps[k]? = some p) :
    paraStart ps (k + 1) = paraStart ps k + (p.text.length + 1) := by
  unfold paraStart
  rw [take_add_one, hp, byteSpan_append]
  simp

theorem rows_joined (ps : List Para) : ∀ (k : Nat) (bs : List (List Nat)), k + bs.length = ps.length →
    (rows k bs).map (fun x => paraStart ps x.1 + x.2) =
      (Cuts.joined (bs.zip ((ps.drop k).map fun p => p.text.length + 1))).map (paraStart ps k + ·)
  | k, [], _ => rfl
  | k, b :: bs, hlength => by
    rw [length_cons] at hlength
    have hk : k < ps.length := by omega
    rw [drop_eq_getElem_cons hk, map_cons, zip_cons_cons, Cuts.joined, rows, map_append, map_append, map_map,
      map_map, rows_joined ps (k + 1) bs (by omega), paraStart_succ (getElem?_eq_getElem hk)]
    refine congrArg (_ ++ ·) (map_congr_left fun s _ => ?_)
    exact Nat.add_assoc _ _ _

theorem InRows.covers {ps : List Para} (hne : ps ≠ []) {xs : List (Nat × Nat)} (h : InRows ps ps.length xs) :
    Cuts.Covers (xs.map fun x => paraStart ps x.1 + x.2) (docLength ps + 1) := by
  obtain ⟨bs, hlength, hall, rfl⟩ := h
  have hlengths : bs.length = (ps.map fun p => p.text.length + 1).length := by rw [length_map, hlength]
  have hjoined := @Cuts.covers_joined (bs.zip (ps.map fun p => p.text.length + 1))
    (fun hnil => by
      rw [zip_eq_nil_iff, map_eq_nil_iff] at hnil
      rcases hnil with rfl | hnil
      · exact hne (length_eq_zero_iff.1 hlength.symm)
      · exact hne hnil)
    (fun x hx => by
      obtain ⟨k, hk⟩ := mem_iff_getElem?.1 hx
      rw [getElem?_zip_eq_some, getElem?_map] at hk
      obtain ⟨p, hp, hpx⟩ := Option.map_eq_some_iff.1 hk.2
      rw [← hpx, ← paraAt_of_getElem? hp]
      exact hall k x.1 hk.1)
  rw [map_snd_zip (Nat.le_of_eq hlengths.symm), show ((ps.map fun p => p.text.length + 1).sum) = byteSpan ps from rfl,
    ← docLength_add_one hne] at hjoined
  rw [rows_joined ps 0 bs (by rw [Nat.zero_add, hlength])]
  have hzero : ∀ l : List Nat, l.map (paraStart ps 0 + ·) = l := fun l => by
    rw [show paraStart ps 0 = 0 from rfl]
    simp
  rwa [hzero]

/-! ## Layouts that come to an end -/

omit [DecidableLE F] in
theorem settleLines_isSome {fuel : Nat} {ps : List Para} (hne : ps ≠ []) {L : PWLayout F} (hrows : InRows ps ps.length (places L.fLines))
    (hfuel : docLength ps + 1 < fuel) : (settleLines fuel ps L).isSome := by
  have hlength : (cacheAbsoluteStarts L ps).fLines.length < fuel := by
    have := (hrows.covers hne).length_le
    rw [length_map, places, length_map] at this
    rw [cacheAbsoluteStarts, length_map]
    omega
  obtain ⟨L', hL', -⟩ := assign_total (cacheAbsoluteStarts L ps) ps hlength
  unfold settleLines
  rw [hL']
  rfl

section
variable {fuel : Nat} {ps : List Para} (hne : ps ≠ []) (hfuel : Enough fuel ps ∧ docLength ps + 1 < fuel) (hps : ∀ p ∈ ps, p.LaysOut)
include hfuel hps

theorem measure_isSome {k : Nat} (hk : k < ps.length) (L : PWLayout F) : (measure fonts fuel ps L k).isSome :=
  laysOut_isSome fonts hfuel.1 (getElem?_eq_getElem hk) (hps _ (getElem_mem hk)) _

include hne

theorem layoutFull_isSome (L : PWLayout F) : (layoutFull fonts fuel L ps).isSome := by
  have hstart : Filled ps L.fPrevSummaries 0 { L with fLines := [], fRows := SortedMap.empty, fMeasuredParas := 0 } :=
    Filled.start ps rfl rfl
  have hkeep : ∀ k a b, k < ps.length → Filled ps L.fPrevSummaries k a → measure fonts fuel ps a k = some b →
      Filled ps L.fPrevSummaries (k + 1) b := fun _ _ _ _ h hm => h.measure fonts hm
  obtain ⟨L₁, hfold⟩ := Option.isSome_iff_exists.1 (Loops.forRange_isSome (Filled ps L.fPrevSummaries) hkeep
    (fun k a hk _ => measure_isSome fonts hfuel hps hk a) hstart)
  have hfilled := Loops.forRange_inv (Filled ps L.fPrevSummaries) hkeep hstart hfold
  unfold layoutFull
  rw [hfold]
  show (Option.map _ (settleLines fuel ps L₁)).isSome
  rw [Option.isSome_map]
  exact settleLines_isSome hne hfilled.rows hfuel.2

/-- **A layout comes to its end** where every paragraph can be laid out. -/
theorem layout_isSome {L : PWLayout F} (hold : L.fPrevValid = true → Reusable ps L.fPrevSummaries L.fLines) :
    (layout fonts fuel L (some ps)).isSome := by
  rw [layout]
  split
  · exact layoutFull_isSome fonts hne hfuel hps L
  rename_i hkept
  have hvalid : L.fPrevValid = true := by
    rw [not_or, not_or] at hkept
    simpa using hkept.2.1
  have hstart : Filled ps L.fPrevSummaries 0 { L with fLines := [], fMeasuredParas := 0 } := Filled.start ps rfl rfl
  have hkeep : ∀ k a b, k < ps.length → Filled ps L.fPrevSummaries k a → reuseOrMeasure fonts fuel ps L.fLines a k = some b →
      Filled ps L.fPrevSummaries (k + 1) b := fun _ _ _ hk h hm => h.reuseOrMeasure fonts (hold hvalid) hk hm
  have hsome : ∀ k a, k < ps.length → Filled ps L.fPrevSummaries k a → (reuseOrMeasure fonts fuel ps L.fLines a k).isSome := by
    intro k a hk _
    unfold reuseOrMeasure
    split
    · split
      · rfl
      · exact measure_isSome fonts hfuel hps hk a
    · exact measure_isSome fonts hfuel hps hk a
  obtain ⟨L₁, hfold⟩ := Option.isSome_iff_exists.1 (Loops.forRange_isSome (Filled ps L.fPrevSummaries) hkeep hsome hstart)
  have hfilled := Loops.forRange_inv (Filled ps L.fPrevSummaries) hkeep hstart hfold
  rw [hfold, Option.bind_some]
  exact settleLines_isSome hne hfilled.rows hfuel.2

end

end Writer
end Prose
