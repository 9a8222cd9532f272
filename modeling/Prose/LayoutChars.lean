import Prose.LayoutModel
import Prose.Utf8
/-!
# LayoutChars — walking the characters of a paragraph

`utf8Next` gets on and stays within the text whatever the bytes are.  In a text of UTF-8 it goes from one place between two characters
to the next one.
-/
namespace Prose
namespace Writer

open List

open Json (utf8 Utf8)

/-! ## Any bytes -/

theorem charStep_pos (c : Byte) : 0 < charStep c := by
  unfold charStep
  split_ifs <;> omega

theorem lt_utf8Next (text : List Byte) {i len : Nat} (h : i < len) : i < utf8Next text i len := by
  unfold utf8Next
  rw [if_neg (Nat.not_le.2 h)]
  have hstep : 0 < ((text[i]?).map charStep).getD 1 := by
    cases text[i]? with
    | none => exact Nat.one_pos
    | some c => exact charStep_pos c
  dsimp only
  split <;> omega

theorem utf8Next_le (text : List Byte) (i len : Nat) : utf8Next text i len ≤ len := by
  unfold utf8Next
  dsimp only
  split_ifs <;> omega

theorem le_skipSpaces (text : List Byte) (stop at' : Nat) : at' ≤ skipSpaces text stop at' := Nat.le_add_right _ _

theorem skipSpaces_le (text : List Byte) {stop at' : Nat} (h : at' ≤ stop) : skipSpaces text stop at' ≤ stop := by
  unfold skipSpaces
  have := (takeWhile_sublist (l := (text.take stop).drop at') (·.val == 32)).length_le
  rw [length_drop, length_take] at this
  omega

theorem isByte_iff {c : UInt8} {text : List Byte} {i : Nat} : isByte c text i = true ↔ ∃ b, text[i]? = some b ∧ b.val = c := by
  unfold isByte
  rw [Option.any_eq_true]
  simp only [beq_iff_eq]

theorem skipSpaces_spaces {text : List Byte} {stop at' i : Nat} (hi : at' ≤ i) (h : i < skipSpaces text stop at') :
    isByte 32 text i = true := by
  unfold skipSpaces at h
  obtain ⟨l, hl⟩ : ∃ l, ((text.take stop).drop at').takeWhile (·.val == 32) = l := ⟨_, rfl⟩
  have hall : ∀ c ∈ l, (c.val == 32) = true := fun c hc => by
    rw [← hl] at hc
    have := mem_takeWhile_imp hc
    exact this
  rw [hl] at h
  have hlt : i - at' < l.length := by omega
  have hp := hall _ (getElem_mem hlt)
  have hpre : l <+: (text.take stop).drop at' := hl ▸ takeWhile_prefix _
  have hget := hpre.getElem hlt
  rw [getElem_drop, getElem_take] at hget
  have hidx : at' + (i - at') = i := by omega
  simp only [hidx] at hget
  have hin : i < text.length := by
    have := hpre.length_le
    rw [length_drop, length_take] at this
    omega
  unfold isByte
  rw [getElem?_eq_getElem hin, Option.any_some, ← hget]
  exact hp

theorem trimEnd_spec (text : List Byte) (lineStart : Nat) : ∀ lineEnd : Nat, lineStart ≤ lineEnd →
    lineStart ≤ trimEnd text lineStart lineEnd ∧ trimEnd text lineStart lineEnd ≤ lineEnd ∧
      (∀ i, trimEnd text lineStart lineEnd ≤ i → i < lineEnd → breakAt text i = true) ∧
      (lineStart < trimEnd text lineStart lineEnd → breakAt text (trimEnd text lineStart lineEnd - 1) = false)
  | 0, h => by
    unfold trimEnd
    exact ⟨h, Nat.le_refl _, fun i _ hi => by omega, fun hlt => by omega⟩
  | lineEnd + 1, h => by
    unfold trimEnd
    split
    · rename_i hb
      obtain ⟨h1, h2, h3, h4⟩ := trimEnd_spec text lineStart lineEnd (by omega)
      refine ⟨h1, by omega, fun i hi hlt => ?_, h4⟩
      by_cases he : i = lineEnd
      · rw [he]
        exact hb.2
      · exact h3 i hi (by omega)
    · rename_i hb
      refine ⟨h, Nat.le_refl _, fun i hi hlt => by omega, fun hlt => ?_⟩
      rw [Nat.add_sub_cancel]
      exact Bool.eq_false_iff.2 fun hbreak => hb ⟨hlt, hbreak⟩

/-! ## UTF-8 -/

def IsText (t : List Byte) : Prop := Utf8 (t.map Subtype.val)

structure Boundary (t : List Byte) (i : Nat) : Prop where
  le : i ≤ t.length
  before : IsText (t.take i)
  behind : IsText (t.drop i)

def leadWidth (v : Nat) : Nat := if v < 0xC0 then 1 else if v < 0xE0 then 2 else if v < 0xF0 then 3 else if v < 0xF8 then 4 else 1

theorem charStep_eq (c : Byte) : charStep c = leadWidth c.val.toNat := by
  have hall : ∀ v : Fin 256, (if UInt8.ofFin v &&& 0x80 = 0 then 1 else if UInt8.ofFin v &&& 0xE0 = 0xC0 then 2
      else if UInt8.ofFin v &&& 0xF0 = 0xE0 then 3 else if UInt8.ofFin v &&& 0xF8 = 0xF0 then 4 else 1) =
      leadWidth v.val := by decide +kernel
  exact hall c.val.toFin

theorem utf8_shape (n : Nat) : ∃ x xs, utf8 n = x :: xs ∧ xs.length + 1 = leadWidth x.toNat ∧
    (x.toNat < 0x80 ∨ 0xC0 ≤ x.toNat) ∧ ∀ y ∈ xs, 0x80 ≤ y.toNat ∧ y.toNat < 0xC0 := by
  have hbyte (k : Nat) (hk : k < 256) : (UInt8.ofNat k).toNat = k := by
    rw [UInt8.toNat_ofNat', Nat.mod_eq_of_lt hk]
  unfold utf8
  split_ifs with h1 h2 h3
  · refine ⟨_, [], rfl, ?_, ?_, by simp⟩ <;> rw [hbyte n (by omega)]
    · rw [leadWidth, if_pos (by omega)]
      rfl
    · omega
  · refine ⟨_, _, rfl, ?_, ?_, ?_⟩
    · rw [hbyte _ (by omega), leadWidth, if_neg (by omega), if_pos (by omega)]
      rfl
    · rw [hbyte _ (by omega)]
      omega
    · intro y hy
      rw [mem_singleton.1 hy, hbyte _ (by omega)]
      omega
  · refine ⟨_, _, rfl, ?_, ?_, ?_⟩
    · rw [hbyte _ (by omega), leadWidth, if_neg (by omega), if_neg (by omega), if_pos (by omega)]
      rfl
    · rw [hbyte _ (by omega)]
      omega
    · intro y hy
      rcases mem_cons.1 hy with rfl | hy
      · rw [hbyte _ (by omega)]
        omega
      · rw [mem_singleton.1 hy, hbyte _ (by omega)]
        omega
  · refine ⟨_, _, rfl, ?_, ?_, ?_⟩
    · rw [hbyte _ (by omega), leadWidth, if_neg (by omega), if_neg (by omega), if_neg (by omega), if_pos (by omega)]
      rfl
    · rw [hbyte _ (by omega)]
      omega
    · intro y hy
      rcases mem_cons.1 hy with rfl | hy
      · rw [hbyte _ (by omega)]
        omega
      rcases mem_cons.1 hy with rfl | hy
      · rw [hbyte _ (by omega)]
        omega
      · rw [mem_singleton.1 hy, hbyte _ (by omega)]
        omega

theorem IsText.first {t : List Byte} (h : IsText t) (hne : t ≠ []) : ∃ x cs, t = x :: cs ∧
    ∃ xs rest, cs = xs ++ rest ∧ xs.length + 1 = charStep x ∧ (x.val.toNat < 0x80 ∨ 0xC0 ≤ x.val.toNat) ∧
      (∀ y ∈ xs, 0x80 ≤ y.val.toNat ∧ y.val.toNat < 0xC0) ∧ IsText (x :: xs) ∧ IsText rest := by
  obtain ⟨l, hl⟩ := h
  cases l with
  | nil => exact absurd (map_eq_nil_iff.1 hl) hne
  | cons c l =>
    rw [flatMap_cons] at hl
    obtain ⟨v, vs, hv, hlength, hlead, hcont⟩ := utf8_shape c.toNat
    rw [← Json.utf8_char, hv] at hl
    obtain ⟨x, cs, rfl, rfl, hcs⟩ := map_eq_cons_iff.1 hl
    obtain ⟨xs, rest, rfl, rfl, hrest⟩ := map_eq_append_iff.1 hcs
    refine ⟨x, _, rfl, xs, rest, rfl, ?_, hlead, fun y hy => hcont _ (mem_map_of_mem hy), ⟨[c], ?_⟩, ⟨l, hrest⟩⟩
    · rw [charStep_eq, ← hlength, length_map]
    · rw [flatMap_singleton, ← Json.utf8_char, hv, map_cons]

theorem IsText.append {s t : List Byte} (hs : IsText s) (ht : IsText t) : IsText (s ++ t) := by
  unfold IsText
  rw [map_append]
  exact Utf8.append hs ht

theorem Boundary.zero {t : List Byte} (h : IsText t) : Boundary t 0 := ⟨Nat.zero_le _, ⟨[], rfl⟩, h⟩

theorem Boundary.length {t : List Byte} (h : IsText t) : Boundary t t.length :=
  ⟨Nat.le_refl _, by rwa [take_length], by rw [drop_length]; exact ⟨[], rfl⟩⟩

/-- **From between two characters to behind the next one**, over bytes none of which starts another. -/
theorem Boundary.next {t : List Byte} {i : Nat} (h : Boundary t i) (hi : i < t.length) :
    Boundary t (utf8Next t i t.length) ∧ ∀ k, i < k → k < utf8Next t i t.length →
      ∃ b, t[k]? = some b ∧ 0x80 ≤ b.val.toNat ∧ b.val.toNat < 0xC0 := by
  have hne : t.drop i ≠ [] := fun hnil => absurd (drop_eq_nil_iff.1 hnil) (Nat.not_le.2 hi)
  obtain ⟨x, cs, hdrop, xs, rest, rfl, hstep, -, hcont, hchar, hrest⟩ := h.behind.first hne
  have ht : t = t.take i ++ (x :: xs ++ rest) := by
    rw [cons_append, ← hdrop, take_append_drop]
  have hlength : (t.take i).length = i := length_take_of_le (Nat.le_of_lt hi)
  have hx : t[i]? = some x := by
    rw [← head?_drop, hdrop, head?_cons]
  have htotal : t.length = i + (xs.length + 1 + rest.length) := by
    have := congrArg List.length ht
    simp only [length_append, length_cons, hlength] at this
    exact this
  have hnext : utf8Next t i t.length = i + (xs.length + 1) := by
    unfold utf8Next
    rw [if_neg (Nat.not_le.2 hi), hx]
    dsimp only [Option.map_some, Option.getD_some]
    rw [← hstep, if_neg (by omega)]
  rw [hnext]
  have hcut : t.take (i + (xs.length + 1)) = t.take i ++ (x :: xs) ∧ t.drop (i + (xs.length + 1)) = rest := by
    have hpre : (t.take i ++ (x :: xs)).length = i + (xs.length + 1) := by
      rw [length_append, hlength, length_cons]
    rw [← append_assoc] at ht
    generalize t.take i ++ (x :: xs) = pre at ht hpre
    rw [ht, ← hpre]
    exact ⟨take_left, drop_left⟩
  refine ⟨⟨by omega, ?_, ?_⟩, fun k hk hlt => ?_⟩
  · rw [hcut.1]
    exact h.before.append hchar
  · rwa [hcut.2]
  · have hin : k - i - 1 < xs.length := by omega
    refine ⟨xs[k - i - 1], ?_, hcont _ (getElem_mem hin)⟩
    have : t[k]? = (t.drop i)[k - i]? := by
      rw [getElem?_drop, Nat.add_sub_of_le (Nat.le_of_lt hk)]
    rw [this, hdrop]
    obtain ⟨m, hm⟩ : ∃ m, k - i = m + 1 := ⟨k - i - 1, by omega⟩
    simp only [hm, Nat.add_sub_cancel] at hin ⊢
    rw [getElem?_cons_succ, getElem?_append_left hin, getElem?_eq_getElem hin]

theorem Boundary.next_le {t : List Byte} {i e : Nat} (h : Boundary t i) (he : Boundary t e) (hlt : i < e) :
    utf8Next t i t.length ≤ e := by
  by_contra hnot
  have hin : e < t.length := Nat.lt_of_lt_of_le (Nat.not_le.1 hnot) (utf8Next_le _ _ _)
  obtain ⟨b, hb, h1, h2⟩ := (h.next (Nat.lt_trans hlt hin)).2 e hlt (Nat.not_le.1 hnot)
  have hne : t.drop e ≠ [] := fun hnil => absurd (drop_eq_nil_iff.1 hnil) (Nat.not_le.2 hin)
  obtain ⟨x, cs, hdrop, -, -, -, -, hlead, -⟩ := he.behind.first hne
  rw [← head?_drop, hdrop, head?_cons] at hb
  rw [Option.some.inj hb] at hlead
  omega

theorem Boundary.ascii {t : List Byte} (h : IsText t) {i : Nat} {b : Byte} (hi : t[i]? = some b) (hb : b.val.toNat < 0x80) :
    Boundary t i ∧ Boundary t (i + 1) := by
  obtain ⟨hlt, hget⟩ := List.getElem?_eq_some_iff.1 hi
  have hdrop : t.drop i = b :: t.drop (i + 1) := by rw [drop_eq_getElem_cons hlt, hget]
  have ht : t = t.take i ++ b :: t.drop (i + 1) := by rw [← hdrop, take_append_drop]
  have hcut : IsText (t.take i) ∧ IsText (t.drop (i + 1)) := by
    unfold IsText at h
    rw [ht, map_append, map_cons] at h
    exact Utf8.cut hb h
  have hone : IsText [b] := Utf8.ascii hb
  refine ⟨⟨Nat.le_of_lt hlt, hcut.1, ?_⟩, ⟨hlt, ?_, hcut.2⟩⟩
  · rw [hdrop]
    exact hone.append hcut.2
  · rw [take_add_one, hi]
    exact hcut.1.append hone

end Writer
end Prose
