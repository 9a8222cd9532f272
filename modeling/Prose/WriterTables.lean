import Prose.WriterRows
/-!
# WriterTables — rows and columns

A row is a paragraph, its cells are what stands between its separators, and a table is a maximal run of rows.  What the calls on rows and
columns do to the texts of the paragraphs.
-/
namespace Prose
namespace Writer

open Splice List

/-! ## A row deleted -/

theorem texts_mid : ∀ {ps : List Para} {A : List (List Byte)} {t : List Byte} {B : List (List Byte)}, texts ps = A ++ t :: B →
    ∃ pre p post, ps = pre ++ p :: post ∧ texts pre = A ∧ p.text = t ∧ texts post = B := fun h => by
  obtain ⟨pre, rest, rfl, hA, hrest⟩ := map_eq_append_iff.1 h
  obtain ⟨p, post, rfl, ht, hB⟩ := map_eq_cons_iff.1 hrest
  exact ⟨pre, p, post, rfl, hA, ht, hB⟩

theorem byteSpan_texts (ps : List Para) : byteSpan ps = (terminated (texts ps)).length := by
  rw [← bytes_terminated, length_bytes]

theorem byteSpan_congr {ps qs : List Para} (h : texts ps = texts qs) : byteSpan ps = byteSpan qs := by
  rw [byteSpan_texts, byteSpan_texts, h]

/-- **The row goes**, with a separator if there is another paragraph, and the caret is in the document. -/
structure RowDeleted (d d' : PWDocument) (para caret : Nat) : Prop where
  texts : texts d'.fParas = if d.fParas.length = 1 then [[]] else (texts d.fParas).eraseIdx para
  caret : caret ≤ docLength d'.fParas

section
variable {d : PWDocument} {pre post : List Para} {p : Para}

theorem eraseIdx_mid (pre post : List Para) (p : Para) :
    (texts (pre ++ p :: post)).eraseIdx pre.length = texts pre ++ texts post := by
  rw [texts_append, texts_cons, ← length_texts pre, eraseIdx_append_of_length_le (Nat.le_refl _), Nat.sub_self]
  rfl

/-- A row with no other beside it: its text goes, and then a separator, if there is one behind it. -/
theorem remove_twice (hd : Lined d.fParas) (hps : d.fParas = pre ++ p :: post) :
    texts ((d.remove (byteSpan pre) p.text.length).remove (byteSpan pre) 1).fParas =
      if post = [] then texts pre ++ [[]] else texts pre ++ texts post := by
  have hfirst : texts (d.remove (byteSpan pre) p.text.length).fParas = texts pre ++ [] :: texts post := by
    have h := texts_remove hd hps (k := 0) (n := p.text.length) (by omega)
    rw [Nat.add_zero] at h
    rw [h]
    unfold cut
    rw [take_zero, nil_append, Nat.zero_add, drop_length]
  obtain ⟨pre', p', post', hps', hpre, hp, hpost⟩ := texts_mid hfirst
  have hspan := byteSpan_congr hpre
  split
  · next hnil =>
    obtain rfl : post' = [] := map_eq_nil_iff.1 (hpost.trans (congrArg texts hnil))
    have hL := docLength_mid pre' p' []
    rw [← hps', hp, length_nil, byteSpan_nil] at hL
    rw [PWDocument.remove, if_pos (.inr (by omega)), hfirst, hnil]
    rfl
  · next hne =>
    have hne' : post' ≠ [] := fun h => hne (map_eq_nil_iff.1 (hpost.symm.trans (congrArg texts h)))
    have h := texts_remove_behind (hd.remove _ _) hps' hne'
    rw [hp, length_nil, Nat.zero_add, hspan, hpre, hpost] at h
    exact h

theorem docLength_of_texts {ps : List Para} {ts : List (List Byte)} (h : texts ps = ts) (hne : ts ≠ []) :
    docLength ps + 1 = (terminated ts).length := by
  rw [docLength_add_one fun hn => hne (by rw [← h, hn]; rfl), byteSpan_texts, h]

theorem rowDeleted_of_texts (hps : d.fParas = pre ++ p :: post) (hpost : post ≠ []) {d' : PWDocument}
    (h : texts d'.fParas = texts pre ++ texts post) : RowDeleted d d' pre.length (byteSpan pre) := by
  have hL := docLength_of_texts h (append_ne_nil_of_right_ne_nil _ fun hn => hpost (map_eq_nil_iff.1 hn))
  rw [terminated_append, length_append, ← byteSpan_texts, ← byteSpan_texts] at hL
  have hpos := byteSpan_pos hpost
  have hpos' := length_pos_iff.2 hpost
  refine ⟨?_, by omega⟩
  rw [if_neg (by rw [hps, length_append, length_cons]; omega), h, hps, eraseIdx_mid]

/-- **A row is deleted as it should exactly if it is not the document's last paragraph, or is its only one.** -/
theorem deleteTableRow_iff {d : PWDocument} (hd : Lined d.fParas) (offset : Nat) (hrow : isRow d.fParas (locate d.fParas offset).1) :
    (∃ d' c, d.deleteTableRow offset = some (d', some c) ∧ RowDeleted d d' (locate d.fParas offset).1 c) ↔
      (locate d.fParas offset).1 + 1 < d.fParas.length ∨ d.fParas.length = 1 := by
  obtain ⟨pre, p, post, k, hps, hloc, -, -⟩ := locate_spec hd.ne_nil offset
  have hlen : d.fParas.length = pre.length + (post.length + 1) := by
    rw [hps, length_append, length_cons]
  have hstart : paraStart d.fParas pre.length = byteSpan pre := by rw [hps, paraStart_mid]
  have hat : paraAt d.fParas pre.length = p := by rw [hps, paraAt_mid]
  have hmore : pre.length + 1 < d.fParas.length ↔ post ≠ [] := by
    rw [hlen, ← length_pos_iff]
    omega
  unfold PWDocument.deleteTableRow
  dsimp only
  rw [hloc] at hrow ⊢
  rw [hrow, Bool.not_true, if_neg Bool.false_ne_true, hstart, hat, hmore]
  dsimp only
  cases hb : (decide (pre.length ≥ 1) && isRow d.fParas (pre.length - 1)) with
  | false =>
    cases hn : isRow d.fParas (pre.length + 1) with
    | false =>
      -- the only row of its table
      rw [if_pos (show (!false && !false) = true from rfl)]
      have htexts := remove_twice hd hps
      by_cases hpost : post = []
      · rw [if_pos hpost] at htexts
        constructor
        · rintro ⟨d', c, hd', h, -⟩
          obtain ⟨rfl, -⟩ := Prod.mk.inj (Option.some.inj hd')
          by_contra hno
          rw [if_neg fun h1 => hno (.inr h1), hps, eraseIdx_mid, htexts, hpost] at h
          have hcount := congrArg List.length h
          rw [length_append, length_append] at hcount
          exact absurd hcount (by simp [texts])
        · rintro (h | h)
          · exact absurd hpost h
          · have hpre : pre = [] := length_eq_zero_iff.1 (by omega)
            refine ⟨_, _, rfl, ?_, ?_⟩
            · rw [if_pos h, htexts, hpre]
              rfl
            · rw [hpre]
              exact Nat.zero_le _
      · rw [if_neg hpost] at htexts
        exact iff_of_true ⟨_, _, rfl, rowDeleted_of_texts hps hpost htexts⟩ (.inl hpost)
    | true =>
      have hpost : post ≠ [] := fun h => by
        unfold isRow at hn
        rw [getElem?_eq_none (by rw [hlen, h]; exact Nat.le_refl _)] at hn
        exact Bool.false_ne_true hn
      rw [if_neg (by decide), if_pos (by decide)]
      exact iff_of_true ⟨_, _, rfl, rowDeleted_of_texts hps hpost (texts_remove_behind hd hps hpost)⟩ (.inl hpost)
  | true =>
    have hge : 1 ≤ pre.length := of_decide_eq_true ((Bool.and_eq_true _ _).mp hb).1
    rw [if_neg (by simp), if_neg (by simp)]
    obtain ⟨pre', q, hq⟩ : ∃ pre' q, pre = pre' ++ [q] :=
      ⟨pre.dropLast, pre.getLast (ne_nil_of_length_pos hge), (dropLast_append_getLast _).symm⟩
    have hsum : byteSpan pre = byteSpan pre' + (q.text.length + 1) := by rw [hq, byteSpan_append, byteSpan_cons, byteSpan_nil, Nat.add_zero]
    have htexts := texts_remove_before hd (show d.fParas = pre' ++ q :: p :: post by rw [hps, hq, append_assoc]; rfl)
    rw [show byteSpan pre' + q.text.length = byteSpan pre - 1 by omega,
      show texts pre' ++ q.text :: texts post = texts pre ++ texts post by rw [hq, texts_append, append_assoc]; rfl] at htexts
    by_cases hpost : post = []
    · refine iff_of_false ?_ (by
        rintro (h | h)
        · exact h hpost
        · omega)
      -- the caret is behind the end
      rintro ⟨d', c, hd', -, hc⟩
      obtain ⟨rfl, hc'⟩ := Prod.mk.inj (Option.some.inj hd')
      cases hc'
      have hL := docLength_of_texts htexts (append_ne_nil_of_left_ne_nil (fun h => by
        rw [map_eq_nil_iff.1 h] at hge
        exact absurd hge (by decide)) _)
      rw [hpost, terminated_append, length_append, ← byteSpan_texts, show (terminated (texts [])).length = 0 from rfl] at hL
      omega
    · exact iff_of_true ⟨_, _, rfl, rowDeleted_of_texts hps hpost htexts⟩ (.inl hpost)

end

def twoRows : List Byte := [byteA, kCellSep, newline, kCellSep, byteB]

def written (t : List Byte) : PWDocument := (PWDocument.new noFamily).insert 0 t none

theorem written_reachable (t : List Byte) : Reachable noFamily (written t) := Calls.of_callAll [.edit (.insert 0 t none)] rfl

theorem deleteTableRow_iff_behind :
    (∃ d' c, (written (twoRows ++ [newline])).deleteTableRow 3 = some (d', some c) ∧
      RowDeleted (written (twoRows ++ [newline])) d' (locate (written (twoRows ++ [newline])).fParas 3).1 c) ↔
    (locate (written (twoRows ++ [newline])).fParas 3).1 + 1 < (written (twoRows ++ [newline])).fParas.length ∨
      (written (twoRows ++ [newline])).fParas.length = 1 :=
  deleteTableRow_iff (written_reachable _).wellFormed.lined 3 (by decide)

/-- **The last row of a table that ends the document**: the caret is put behind the end. -/
theorem lastRow_caret : ¬ ∀ (plain : FontFamily) (d : PWDocument) (offset : Nat), Reachable plain d →
    isRow d.fParas (locate d.fParas offset).1 = true →
    ∃ d' c, d.deleteTableRow offset = some (d', some c) ∧ RowDeleted d d' (locate d.fParas offset).1 c := fun h => by
  obtain ⟨d', c, hd', -, hc⟩ := h noFamily (written twoRows) 3 (written_reachable _) (by decide)
  have hrun : ((written twoRows).deleteTableRow 3).map (fun r => (docLength r.1.fParas, r.2)) = some (2, some 3) := by decide
  rw [hd'] at hrun
  obtain ⟨hlen, hcaret⟩ := Prod.mk.inj (Option.some.inj hrun)
  cases hcaret
  exact absurd (hlen ▸ hc) (by decide)

end Writer
end Prose
