import Prose.WriterInvariants
import Prose.WriterUndo
/-!
# WriterRestyle — a format for a range

`ApplyFormat` gives the text bytes of its range the format and leaves everything else.  A range that runs past the document it never
gets behind: `CaptureRuns` stands in the last paragraph then, and takes nothing from turn to turn.
-/
namespace Prose
namespace Writer

open Splice

/-- **The text bytes of a range have a format**, and the rest of the document is as it was. -/
structure Styled (d d' : PWDocument) (offset length : Nat) (fmt : PWCharFormat) : Prop where
  paras : List.Forall₂ (fun p p' : Para => p'.text = p.text ∧ p'.format = p.format ∧ p'.images = p.images ∧ p'.id = p.id)
    d.fParas d'.fParas
  formats : ∀ (k : Nat) (b : Byte), (plainText d.fParas)[k]? = some b → b ≠ newline →
    d'.formatAt k = if offset ≤ k ∧ k < offset + length then fmt else d.formatAt k

theorem Tiled.cell_of_byte {ps : List Para} (h : Tiled ps) (hne : ps ≠ []) {k : Nat} {b : Byte}
    (hb : (plainText ps)[k]? = some b) (hn : b ≠ newline) : ∃ f, (cells ps)[k + 1]? = some (.ch b f) := by
  have hc : ((cells ps).map Cell.byte)[k + 1]? = some b := by
    rw [h.map_byte hne, List.getElem?_cons_succ, hb]
  rw [List.getElem?_map] at hc
  obtain ⟨c, hcell, hcb⟩ := Option.map_eq_some_iff.1 hc
  cases c with
  | brk F => exact absurd hcb.symm hn
  | ch b' f =>
    obtain rfl : b' = b := hcb
    exact ⟨f, hcell⟩

theorem formatAt_of_cells {d d' : PWDocument} (h : Holds d.fParas (cells d.fParas)) {offset length : Nat} {fmt : PWCharFormat}
    (h' : Holds d'.fParas (mapSpan (offset + 1) (offset + length + 1) (Cell.restyle fmt) (cells d.fParas))) {k : Nat} {b : Byte}
    (hb : (plainText d.fParas)[k]? = some b) (hn : b ≠ newline) :
    d'.formatAt k = if offset ≤ k ∧ k < offset + length then fmt else d.formatAt k := by
  obtain ⟨f, hf⟩ := h.tiled.cell_of_byte h.ne_nil hb hn
  have hcell : (cells d'.fParas)[k + 1]? = some (.ch b (if offset ≤ k ∧ k < offset + length then fmt else f)) := by
    rw [h'.cells, mapSpan_getElem?, hf, Option.map_some]
    by_cases hk : offset ≤ k ∧ k < offset + length
    · rw [if_pos (by omega), if_pos hk]
      rfl
    · rw [if_neg (by omega), if_neg hk]
  rw [h'.tiled.formatAt h'.ne_nil hcell, h.tiled.formatAt h.ne_nil hf]

theorem applyFormat_paras {d d' : PWDocument} {offset length : Nat} {fmt : PWCharFormat} (h : d.applyFormat offset length fmt = some d') :
    List.Forall₂ (fun p p' : Para => p'.text = p.text ∧ p'.format = p.format ∧ p'.images = p.images ∧ p'.id = p.id)
      d.fParas d'.fParas := by
  unfold PWDocument.applyFormat at h
  split at h
  · cases h
    exact List.forall₂_same.2 fun p _ => ⟨rfl, rfl, rfl, rfl⟩
  obtain ⟨runs, -, rfl⟩ := Option.map_eq_some_iff.1 h
  rw [pushUndo_fParas]
  refine forall₂_formatLoop (fun p => ⟨rfl, rfl, rfl, rfl⟩) (fun p q r hpq hqr => ?_) _ _ (fun p k take _ => ⟨rfl, rfl, rfl, rfl⟩) _ _ _ _
  obtain ⟨h1, h2, h3, h4⟩ := hpq
  obtain ⟨g1, g2, g3, g4⟩ := hqr
  exact ⟨g1.trans h1, g2.trans h2, g3.trans h3, g4.trans h4⟩

/-- **`ApplyFormat` gives its range the format exactly if the range lies in the document**; otherwise it does not return. -/
theorem applyFormat_styled_iff {d : PWDocument} (hd : d.WellFormed) (offset : Nat) {length : Nat} (h0 : 0 < length) (fmt : PWCharFormat) :
    (∃ d', d.applyFormat offset length fmt = some d' ∧ Styled d d' offset length fmt) ↔ offset + length ≤ docLength d.fParas := by
  constructor
  · rintro ⟨d', hd', -⟩
    by_contra hlt
    have hpast : docLength d.fParas < offset + length := by omega
    unfold PWDocument.applyFormat at hd'
    rw [if_neg (by omega), captureRuns_eq_none hd.ne_nil hpast h0] at hd'
    exact nomatch hd'
  · intro hr
    have h : Holds d.fParas (cells d.fParas) := ⟨hd.tiled, hd.ne_nil, rfl⟩
    obtain ⟨d', hd', h'⟩ := h.applyFormat offset length hr fmt
    exact ⟨d', hd', applyFormat_paras hd', fun k b hb hn => formatAt_of_cells h h' hb hn⟩

def oneLetter : PWDocument := (PWDocument.new noFamily).insert 0 [byteA] none

theorem oneLetter_reachable : Reachable noFamily oneLetter := Calls.of_callAll [.edit (.insert 0 [byteA] none)] rfl

theorem applyFormat_styled_iff_oneLetter :
    (∃ d', oneLetter.applyFormat 0 1 { makeDefaultFormat noFamily with bold := true } = some d' ∧
      Styled oneLetter d' 0 1 { makeDefaultFormat noFamily with bold := true }) ↔ 0 + 1 ≤ docLength oneLetter.fParas :=
  applyFormat_styled_iff oneLetter_reachable.wellFormed 0 (by decide) _

/-- **A range of two bytes** is one too many for it. -/
theorem applyFormat_spins : ¬ ∀ (plain : FontFamily) (d : PWDocument) (offset length : Nat) (fmt : PWCharFormat), Reachable plain d →
    0 < length → ∃ d', d.applyFormat offset length fmt = some d' ∧ Styled d d' offset length fmt := fun h => by
  obtain ⟨d', hd', -⟩ := h noFamily oneLetter 0 2 (makeDefaultFormat noFamily) oneLetter_reachable (by decide)
  exact nomatch hd'

end Writer
end Prose
