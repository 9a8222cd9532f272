import Prose.WriterSplice
/-!
# WriterShown — what a document shows, and typing at its end

A paragraph shows its text, the format of each byte and its own format.  `Shows d pre s` says that the paragraphs of `d`
show `pre` and the last one `s`; the lemmas say what typing, a new line and a paragraph format at the end make of it.
-/
namespace Prose
namespace Writer

open List

@[ext] structure Shown where
  text : List Byte := []
  formats : List PWCharFormat := []
  format : PWParaFormat := {}

def Para.shown (p : Para) : Shown := ⟨p.text, formats p.runs, p.format⟩

def shown (ps : List Para) : List Shown := ps.map Para.shown

structure Shows (d : PWDocument) (pre : List Shown) (s : Shown) : Prop where
  tiled : Tiled d.fParas
  eq : shown d.fParas = pre ++ [s]

def Shown.type (s : Shown) (t : List Byte) (f : PWCharFormat) : Shown :=
  { s with text := s.text ++ t, formats := s.formats ++ List.replicate t.length f }

@[simp] theorem Shown.type_nil (s : Shown) (f : PWCharFormat) : s.type [] f = s := by
  simp [Shown.type]

/-- Lines typed behind what is there: the paragraphs before the last, and the last. -/
def typeLines (f : PWCharFormat) : List Shown → Shown → List (List Byte) → List Shown × Shown
  | pre, s, []  => (pre, s)
  | pre, s, [l] => (pre, s.type l f)
  | pre, s, l :: m :: ls => typeLines f (pre ++ [s.type l f]) { format := s.format } (m :: ls)

theorem Shows.exists_last {d : PWDocument} {pre : List Shown} {s : Shown} (h : Shows d pre s) :
    ∃ ps p, d.fParas = ps ++ [p] ∧ shown ps = pre ∧ p.shown = s := by
  obtain ⟨ps, qs, heq, hpre, hlast⟩ := map_eq_append_iff.1 h.eq
  obtain ⟨p, rfl, hp⟩ := map_eq_singleton_iff.1 hlast
  exact ⟨ps, p, heq, hpre, hp⟩

theorem shows_new (plain : FontFamily) : Shows (PWDocument.new plain) [] {} := by
  refine ⟨?_, rfl⟩
  intro p hp
  rw [mem_singleton.1 hp]
  exact ⟨rfl, Int.le_refl 0, rfl⟩

theorem Shows.length {d : PWDocument} {pre : List Shown} {s : Shown} (h : Shows d pre s) :
    d.fParas.length = pre.length + 1 := by
  have := congrArg List.length h.eq
  rwa [shown, length_map, length_append, length_singleton] at this

theorem locate_end (ps : List Para) (p : Para) :
    locate (ps ++ [p]) (docLength (ps ++ [p])) = (ps.length, p.text.length) := by
  have hlen : docLength (ps ++ [p]) = byteSpan ps + p.text.length := by
    have : docLength (ps ++ [p]) + 1 = byteSpan (ps ++ [p]) := docLength_add_one (by simp)
    rw [byteSpan_append, byteSpan_cons, byteSpan_nil] at this
    omega
  rw [hlen]
  exact locate_mid [] (Nat.le_refl _) ps

theorem Shows.insertSegment {d : PWDocument} {pre : List Shown} {s : Shown} (h : Shows d pre s) (t : List Byte)
    (f : PWCharFormat) : Shows (d.insertSegment (docLength d.fParas) t (some f)) pre (s.type t f) := by
  unfold PWDocument.insertSegment
  by_cases ht : t = []
  · rw [if_pos ht, ht, Shown.type_nil]
    exact h
  obtain ⟨ps, p, heq, rfl, rfl⟩ := h.exists_last
  have htiled := h.tiled
  rw [heq] at htiled
  obtain ⟨hps, hp⟩ := tiled_append.1 htiled
  have hp : p.Tiled := hp p mem_cons_self
  have hparas : (d.insertLine (docLength d.fParas) t (some f)).fParas =
      ps ++ [p.insertText d.fDefault p.text.length t f] := by
    rw [insertLine_fParas, heq]
    unfold insertParas
    rw [locate_end]
    exact modify_mid ps p [] _
  have hins := insertRuns_spec (f := f) hp (Nat.le_refl _) (length_pos_of_ne_nil ht)
  have hformats : formats (p.insertText d.fDefault p.text.length t f).runs =
      formats p.runs ++ List.replicate t.length f := by
    rw [← Splice.insertAt_end hp.length_formats]
    exact (normalizeRuns_spec d.fDefault hins.1).2.trans hins.2
  rw [if_neg ht]
  refine ⟨?_, ?_⟩
  · rw [hparas]
    exact tiled_append.2 ⟨hps, tiled_cons.2 ⟨(hp.insertText d.fDefault f (Nat.le_refl _) ht).1, tiled_nil⟩⟩
  · rw [hparas, shown, map_append, map_singleton]
    refine congrArg (fun q => ps.map Para.shown ++ [q]) ?_
    exact Shown.ext (Splice.insertAt_end rfl t) hformats rfl

theorem Shows.splitPara {d : PWDocument} {pre : List Shown} {s : Shown} (h : Shows d pre s) :
    Shows (d.splitPara (docLength d.fParas)) (pre ++ [s]) { format := s.format } := by
  obtain ⟨ps, p, heq, rfl, rfl⟩ := h.exists_last
  have htiled := h.tiled
  rw [heq] at htiled
  obtain ⟨hps, hp⟩ := tiled_append.1 htiled
  have hp : p.Tiled := hp p mem_cons_self
  have hparas : (d.splitPara (docLength d.fParas)).fParas = ps ++ [p.splitHead d.fDefault p.text.length,
      p.splitTail d.fDefault p.text.length d.fNextParaId] := by
    rw [splitPara_fParas, heq]
    unfold splitParas
    rw [locate_end, drop_mid, take_mid]
  have hhead := (hp.splitHead d.fDefault (Nat.le_refl _)).1
  have htail := (hp.splitTail d.fDefault d.fNextParaId (Nat.le_refl _)).1
  have htext : (p.splitTail d.fDefault p.text.length d.fNextParaId).text = [] := drop_length
  have hformats : formats (p.splitHead d.fDefault p.text.length).runs = formats p.runs := by
    have hspec := headRuns_spec (k := p.text.length) hp
    have htiles : Tiles 0 (headRuns p.text.length p.runs) (p.text.length : Int) := by
      have := hspec.1
      rwa [Int.min_self, Int.min_eq_left (Int.natCast_nonneg _)] at this
    refine (normalizeRuns_spec d.fDefault htiles).2.trans (hspec.2.trans (take_of_length_le ?_))
    rw [hp.length_formats]
    omega
  refine ⟨?_, ?_⟩
  · rw [hparas]
    exact tiled_append.2 ⟨hps, tiled_cons.2 ⟨hhead, tiled_cons.2 ⟨htail, tiled_nil⟩⟩⟩
  · have hlen := htail.length_formats
    rw [htext, length_nil, length_eq_zero_iff] at hlen
    rw [hparas, shown, map_append, map_cons, map_singleton, append_assoc]
    refine congrArg₂ (fun q q' => ps.map Para.shown ++ ([q] ++ [q'])) ?_ ?_
    · exact Shown.ext take_length hformats rfl
    · exact Shown.ext htext hlen rfl

theorem Shows.docLength_eq {d : PWDocument} {pre : List Shown} {s : Shown} (h : Shows d pre s) :
    docLength d.fParas = (pre.map (fun q => q.text.length + 1)).sum + s.text.length := by
  obtain ⟨ps, p, heq, rfl, rfl⟩ := h.exists_last
  have hlen : docLength d.fParas + 1 = byteSpan d.fParas := docLength_add_one (by simp [heq])
  have hspan : byteSpan ps = ((shown ps).map (fun q => q.text.length + 1)).sum := by
    rw [shown, map_map]
    rfl
  rw [heq, byteSpan_append, byteSpan_cons, byteSpan_nil, hspan, ← heq] at hlen
  have : p.shown.text = p.text := rfl
  rw [this]
  omega

/-- **Lines typed at the end**, in one format. -/
theorem Shows.insertLines (f : PWCharFormat) : ∀ {ls : List (List Byte)} {d : PWDocument} {pre : List Shown} {s : Shown},
    Shows d pre s →
      Shows (insertLines (some f) d (docLength d.fParas) ls) (typeLines f pre s ls).1 (typeLines f pre s ls).2
  | [], d, pre, s, h => h
  | [l], d, pre, s, h => h.insertSegment l f
  | l :: m :: ls, d, pre, s, h => by
    have h1 := h.insertSegment l f
    have h2 := h1.splitPara
    have hlen1 : docLength d.fParas + l.length = docLength (d.insertSegment (docLength d.fParas) l (some f)).fParas := by
      rw [h1.docLength_eq, h.docLength_eq, Shown.type, length_append]
      omega
    have hlen2 : docLength (d.insertSegment (docLength d.fParas) l (some f)).fParas + 1 =
        docLength ((d.insertSegment (docLength d.fParas) l (some f)).splitPara
          (docLength (d.insertSegment (docLength d.fParas) l (some f)).fParas)).fParas := by
      rw [h2.docLength_eq, h1.docLength_eq, map_append, List.sum_append, map_singleton, sum_singleton,
        length_nil]
      omega
    rw [Writer.insertLines, hlen1, hlen2, typeLines]
    exact h2.insertLines f

theorem lines_of_oneLine : ∀ {t : List Byte}, newline ∉ t → lines t = [t]
  | [], _ => rfl
  | c :: t, h => by
    rw [mem_cons, not_or] at h
    obtain ⟨hc, ht⟩ := h
    rw [lines, if_neg (Ne.symm hc), lines_of_oneLine ht]

/-- **Typing at the end**, in one format. -/
theorem Shows.insert {d : PWDocument} {pre : List Shown} {s : Shown} (h : Shows d pre s) (t : List Byte)
    (f : PWCharFormat) : Shows (d.insert (docLength d.fParas) t (some f)) (typeLines f pre s (lines t)).1
      (typeLines f pre s (lines t)).2 := by
  unfold PWDocument.insert
  split_ifs with h0 hn
  · subst h0
    rw [lines, typeLines, Shown.type_nil]
    exact h
  · exact h.insertLines f
  · rw [lines_of_oneLine hn, typeLines]
    have := h.insertSegment t f
    rwa [PWDocument.insertSegment, if_neg h0] at this

/-- **A new line at the end.** -/
theorem Shows.insert_newline {d : PWDocument} {pre : List Shown} {s : Shown} (h : Shows d pre s) :
    Shows (d.insert (docLength d.fParas) [newline] none) (pre ++ [s]) { format := s.format } := h.splitPara

/-- **A paragraph format.** -/
theorem setParaFormat_shown {d : PWDocument} {a b : List Shown} {q : Shown} (ht : Tiled d.fParas)
    (h : shown d.fParas = a ++ q :: b) (fmt : PWParaFormat) :
    Tiled (d.setParaFormat a.length fmt).fParas ∧
      shown (d.setParaFormat a.length fmt).fParas = a ++ { q with format := fmt } :: b ∧
      (paraAt d.fParas a.length).format = q.format := by
  obtain ⟨ps, qs, heq, rfl, hqs⟩ := map_eq_append_iff.1 h
  obtain ⟨p, post, rfl, rfl, rfl⟩ := map_eq_cons_iff.1 hqs
  have hparas : (d.setParaFormat ps.length fmt).fParas =
      ps ++ { p with format := fmt, revision := p.revision + 1 } :: post := by
    unfold PWDocument.setParaFormat
    rw [if_neg (by rw [heq, length_append, length_cons]; omega), pushUndo_fParas, heq]
    exact modify_mid ps p post _
  rw [heq] at ht
  obtain ⟨hps, hp⟩ := tiled_append.1 ht
  obtain ⟨hp, hpost⟩ := tiled_cons.1 hp
  rw [length_map, hparas, heq, paraAt_mid]
  refine ⟨tiled_append.2 ⟨hps, tiled_cons.2 ⟨hp, hpost⟩⟩, ?_, rfl⟩
  rw [shown, map_append, map_cons]
  rfl

end Writer
end Prose
