import Prose.WriterFlat
/-!
# WriterCapture — the runs a step saves, and what they restore

`Describes rel runs span` says that the runs, counted from `rel`, hold the format of every byte of a span of cells and
touch no break.  `CaptureRuns` describes its range, exactly when the range lies in the document; applying the described
runs gives every byte of a span of the same shape its described format back.
-/
namespace Prose
namespace Writer

open Splice List

structure Describes (rel : Nat) (runs : List PWRun) (span : List Cell) : Prop where
  bounds : ∀ r ∈ runs, (rel : Int) ≤ r.start ∧ 0 < r.length ∧ r.rEnd ≤ (rel + span.length : Nat)
  format : ∀ r ∈ runs, ∀ k : Nat, r.start ≤ (rel + k : Nat) → ((rel + k : Nat) : Int) < r.rEnd →
    ∃ b, span[k]? = some (.ch b r.format)
  covers : ∀ (k : Nat) b f, span[k]? = some (.ch b f) → ∃ r ∈ runs, r.start ≤ (rel + k : Nat) ∧ ((rel + k : Nat) : Int) < r.rEnd

theorem Describes.nil (rel : Nat) : Describes rel [] [] := ⟨by simp, by simp, by simp⟩

theorem Describes.append {rel : Nat} {as bs : List PWRun} {A B : List Cell} {f : PWParaFormat} (ha : Describes rel as A)
    (hb : Describes (rel + A.length + 1) bs B) : Describes rel (as ++ bs) (A ++ .brk f :: B) := by
  have hget : ∀ k, (A ++ .brk f :: B)[A.length + 1 + k]? = B[k]? := fun k => by
    rw [getElem?_append_right (by omega), show A.length + 1 + k - A.length = k + 1 by omega,
      getElem?_cons_succ]
  constructor
  · intro r hr
    rw [length_append, length_cons]
    rcases mem_append.1 hr with hr | hr
    · obtain ⟨h1, h2, h3⟩ := ha.bounds r hr
      exact ⟨h1, h2, by omega⟩
    · obtain ⟨h1, h2, h3⟩ := hb.bounds r hr
      exact ⟨by omega, h2, by omega⟩
  · intro r hr k h1 h2
    rcases mem_append.1 hr with hr | hr
    · obtain ⟨-, -, h3⟩ := ha.bounds r hr
      rw [getElem?_append_left (by omega)]
      exact ha.format r hr k h1 h2
    obtain ⟨h3, -, -⟩ := hb.bounds r hr
    obtain ⟨j, rfl⟩ : ∃ j, k = A.length + 1 + j := ⟨k - (A.length + 1), by omega⟩
    rw [hget]
    exact hb.format r hr j (by omega) (by omega)
  · intro k b g hk
    by_cases hlt : k < A.length
    · rw [getElem?_append_left hlt] at hk
      obtain ⟨r, hr, h⟩ := ha.covers k b g hk
      exact ⟨r, mem_append_left _ hr, h⟩
    by_cases he : k = A.length
    · subst he
      rw [getElem?_append_right (Nat.le_refl _), Nat.sub_self, getElem?_cons_zero] at hk
      cases hk
    obtain ⟨j, rfl⟩ : ∃ j, k = A.length + 1 + j := ⟨k - (A.length + 1), by omega⟩
    rw [hget] at hk
    obtain ⟨r, hr, h1, h2⟩ := hb.covers j b g hk
    exact ⟨r, mem_append_right _ hr, by omega, by omega⟩

/-! ## `CaptureRuns` -/

theorem mem_capturePieces {k take rel : Nat} {r x : PWRun} (h : x ∈ capturePieces k take rel r) :
    x = ⟨rel + (max (k : Int) r.start - k), min ((k : Int) + take) r.rEnd - max (k : Int) r.start, r.format⟩ ∧
      max (k : Int) r.start < min ((k : Int) + take) r.rEnd := by
  unfold capturePieces at h
  dsimp only at h
  split at h
  · rename_i hlt
    exact ⟨mem_singleton.1 h, hlt⟩
  · cases h

theorem Para.Tiled.describes {p : Para} (h : p.Tiled) {k take rel : Nat} (hk : k + take ≤ p.text.length) :
    Describes rel (p.runs.flatMap (capturePieces k take rel)) ((p.cells.drop (k + 1)).take take) := by
  have hlen : ((p.cells.drop (k + 1)).take take).length = take := by
    rw [length_take, length_drop, h.length_cells]
    omega
  have hcell : ∀ j, j < take → ((p.cells.drop (k + 1)).take take)[j]? =
      (List.zipWith Cell.ch p.text (formats p.runs))[k + j]? := fun j hj => by
    rw [getElem?_take_of_lt hj, getElem?_drop, Para.cells, show k + 1 + j = k + j + 1 by omega,
      getElem?_cons_succ]
  have hzip : ∀ (j : Nat) (r : PWRun), j < take → r ∈ p.runs → r.start ≤ (k + j : Nat) → ((k + j : Nat) : Int) < r.rEnd →
      ∃ b, ((p.cells.drop (k + 1)).take take)[j]? = some (.ch b r.format) := by
    intro j r hj hr h1 h2
    have hf := Tiles.getElem?_formats h r (k + j) hr (by omega) (by omega)
    obtain ⟨b, hb⟩ : ∃ b, p.text[k + j]? = some b := ⟨_, getElem?_eq_getElem (by omega)⟩
    exact ⟨b, by rw [hcell j hj, getElem?_zipWith, hf, hb]⟩
  constructor
  · intro x hx
    obtain ⟨r, hr, hxr⟩ := mem_flatMap.1 hx
    obtain ⟨rfl, hlt⟩ := mem_capturePieces hxr
    rw [hlen]
    simp only [PWRun.rEnd] at hlt ⊢
    omega
  · intro x hx j h1 h2
    obtain ⟨r, hr, hxr⟩ := mem_flatMap.1 hx
    obtain ⟨rfl, hlt⟩ := mem_capturePieces hxr
    have hre : r.rEnd = r.start + r.length := rfl
    simp only [PWRun.rEnd] at h1 h2
    exact hzip j r (by omega) hr (by omega) (by omega)
  · intro j b f hj
    have hjt : j < take := by
      have := (List.getElem?_eq_some_iff.1 hj).1
      omega
    obtain ⟨r, hr, h1, h2⟩ := Tiles.exists_run h ((k + j : Nat) : Int) (by omega) (by omega)
    have hlt : max (k : Int) r.start < min ((k : Int) + take) r.rEnd := by omega
    refine ⟨⟨rel + (max (k : Int) r.start - k), min ((k : Int) + take) r.rEnd - max (k : Int) r.start, r.format⟩,
      mem_flatMap.2 ⟨r, hr, ?_⟩, ?_⟩
    · unfold capturePieces
      dsimp only
      rw [if_pos hlt]
      exact mem_singleton.2 rfl
    · simp only [PWRun.rEnd] at h2 ⊢
      omega

theorem captureFrom_spec : ∀ {ps : List Para} (k rel left : Nat), Tiled ps → ps ≠ [] → k + left ≤ docLength ps →
    k ≤ (paraAt ps 0).text.length →
    ∃ runs, captureFrom ps k rel left = some runs ∧ Describes rel runs (((cells ps).drop (k + 1)).take left)
  | p :: ps, k, rel, left, h, _, hleft, hk => by
    obtain ⟨hp, hps⟩ := tiled_cons.1 h
    have hk : k ≤ p.text.length := hk
    unfold captureFrom
    by_cases h0 : left = 0
    · rw [if_pos h0]
      subst h0
      exact ⟨[], rfl, by rw [take_zero]; exact Describes.nil rel⟩
    rw [if_neg h0]
    by_cases hc : k + left > p.text.length
    · rw [if_pos hc]
      cases ps with
      | nil =>
        rw [docLength, byteSpan_cons, byteSpan_nil] at hleft
        omega
      | cons q ps =>
        have hL := docLength_add_one (cons_ne_nil q ps)
        rw [docLength, byteSpan_cons] at hleft
        obtain ⟨runs, hr, hd⟩ := captureFrom_spec 0 (rel + (p.text.length - k) + 1)
          (left - (p.text.length - k + 1)) hps (cons_ne_nil q ps) (by omega) (Nat.zero_le _)
        refine ⟨_, by dsimp only; rw [hr]; rfl, ?_⟩
        have hspan : ((cells (p :: q :: ps)).drop (k + 1)).take left =
            (p.cells.drop (k + 1)).take (p.text.length - k) ++
              .brk q.format :: ((cells (q :: ps)).drop 1).take (left - (p.text.length - k + 1)) := by
          have hpd : (p.cells.drop (k + 1)).length = p.text.length - k := by
            rw [length_drop, hp.length_cells]
            omega
          rw [cells_cons p, drop_append_of_le_length (by rw [hp.length_cells]; omega), List.take_append,
            take_of_length_le (by omega), take_of_length_le (show _ ≤ p.text.length - k by omega), hpd,
            show left - (p.text.length - k) = left - (p.text.length - k + 1) + 1 by omega]
          rfl
        rw [hspan]
        refine Describes.append (hp.describes (by omega)) ?_
        rw [length_take, length_drop, hp.length_cells,
          show min (p.text.length - k) (p.text.length + 1 - (k + 1)) = p.text.length - k by omega]
        exact hd
    · rw [if_neg hc]
      refine ⟨_, rfl, ?_⟩
      rw [cells_cons, drop_append_of_le_length (by rw [hp.length_cells]; omega),
        take_append_of_le_length (by rw [length_drop, hp.length_cells]; omega)]
      exact hp.describes (by omega)

theorem captureFrom_none : ∀ {ps : List Para} {k rel left : Nat}, ps ≠ [] → docLength ps < k + left → 0 < left →
    k ≤ (paraAt ps 0).text.length → captureFrom ps k rel left = none
  | p :: ps, k, rel, left, _, hleft, h0, hk => by
    have hk : k ≤ p.text.length := hk
    unfold captureFrom
    rw [docLength, byteSpan_cons] at hleft
    rw [if_neg (by omega), if_pos (by omega)]
    cases ps with
    | nil => rfl
    | cons q ps =>
      have hL := docLength_add_one (cons_ne_nil q ps)
      dsimp only
      rw [captureFrom_none (cons_ne_nil q ps) (by omega) (by omega) (Nat.zero_le _)]
      rfl

/-- **`CaptureRuns` describes its range**, when that lies in the document. -/
theorem captureRuns_spec {ps : List Para} {offset length : Nat} (h : Tiled ps) (hne : ps ≠ [])
    (hr : offset + length ≤ docLength ps) :
    ∃ runs, captureRuns ps offset length = some runs ∧
      Describes 0 runs (((cells ps).drop (offset + 1)).take length) := by
  obtain ⟨pre, p, post, k, rfl, hloc, hk, hmin⟩ := locate_spec hne offset
  obtain ⟨hpre, hpp⟩ := tiled_append.1 h
  have hL := docLength_add_one hne
  have hL' := docLength_add_one (cons_ne_nil p post)
  rw [byteSpan_append] at hL
  rw [captureRuns, hloc]
  dsimp only
  rw [drop_mid]
  obtain ⟨runs, h1, h2⟩ := captureFrom_spec k 0 length hpp (cons_ne_nil p post) (by omega) hk
  refine ⟨runs, h1, ?_⟩
  rw [cells_append, show offset + 1 = (cells pre).length + (k + 1) by rw [hpre.length_cells]; omega,
    drop_length_add_append]
  exact h2

/-- **It never returns on any other range.** -/
theorem captureRuns_eq_none {ps : List Para} {offset length : Nat} (hne : ps ≠ []) (hr : docLength ps < offset + length)
    (h0 : 0 < length) : captureRuns ps offset length = none := by
  obtain ⟨pre, p, post, k, rfl, hloc, hk, hmin⟩ := locate_spec hne offset
  have hL := docLength_add_one hne
  have hL' := docLength_add_one (cons_ne_nil p post)
  rw [byteSpan_append] at hL
  rw [captureRuns, hloc]
  dsimp only
  rw [drop_mid]
  exact captureFrom_none (cons_ne_nil p post) (by omega) h0 hk

end Writer
end Prose
