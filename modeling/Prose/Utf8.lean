import Prose.JsonSyntax
import Prose.Pieces
/-!
# Utf8 — what is UTF-8 and what is not

ASCII bytes are characters of their own, so that a text can be cut at them; and what a surrogate comes to in the same manner is not
UTF-8.
-/
namespace Prose
namespace Json

open List

theorem of_mem_utf8 {n : Nat} {x : UInt8} (hx : x.toNat < 0x80) (h : x ∈ utf8 n) : n = x.toNat := by
  have hbyte (k : Nat) (hk : x = UInt8.ofNat k) : k % 256 = x.toNat := by
    rw [hk, UInt8.toNat_ofNat']
  unfold utf8 at h
  split_ifs at h <;> simp only [mem_cons, not_mem_nil, or_false] at h
  · have := hbyte _ h
    omega
  · rcases h with h | h <;> have := hbyte _ h <;> omega
  · rcases h with h | h | h <;> have := hbyte _ h <;> omega
  · rcases h with h | h | h | h <;> have := hbyte _ h <;> omega

theorem utf8_ascii {x : UInt8} (hx : x.toNat < 0x80) : utf8 x.toNat = [x] := by
  unfold utf8
  rw [if_pos (by omega), UInt8.ofNat_toNat]

theorem of_mem_encode {c : Char} {x : UInt8} (hx : x.toNat < 0x80) (h : x ∈ String.utf8EncodeChar c) : c.toNat = x.toNat :=
  of_mem_utf8 hx h

theorem Utf8.nil : Utf8 [] := ⟨[], rfl⟩

theorem Utf8.append {a b : Bytes} : Utf8 a → Utf8 b → Utf8 (a ++ b) := by
  rintro ⟨m, rfl⟩ ⟨l, rfl⟩
  exact ⟨m ++ l, flatMap_append.symm⟩

theorem isUtf8 {n : Nat} (h : n < 0xD800 ∨ 0xE000 ≤ n ∧ n < 0x110000) : Utf8 (utf8 n) := by
  have hvalid : n.isValidChar := h.imp id fun h => ⟨by omega, h.2⟩
  refine ⟨[Char.ofNat n], ?_⟩
  have hn : (Char.ofNat n).toNat = n := by
    unfold Char.ofNat
    rw [dif_pos hvalid]
    rfl
  rw [flatMap_singleton, ← utf8_char, hn]

theorem Utf8.ascii {x : UInt8} (hx : x.toNat < 0x80) : Utf8 [x] := by
  rw [← utf8_ascii hx]
  exact isUtf8 (.inl (by omega))

/-- **What is on either side of an ASCII byte is UTF-8.** -/
theorem Utf8.cut {a b : Bytes} {x : UInt8} (hx : x.toNat < 0x80) (h : Utf8 (a ++ x :: b)) : Utf8 a ∧ Utf8 b := by
  obtain ⟨m, hm⟩ := h
  have hstand : ∀ c ∈ m.map String.utf8EncodeChar, x ∈ c → c = [x] := fun c hc hxc => by
    obtain ⟨d, -, rfl⟩ := mem_map.1 hc
    have hd := of_mem_encode hx hxc
    rw [← utf8_char, hd, utf8_ascii hx]
  obtain ⟨before, behind, hcut, rfl, rfl⟩ := Pieces.cut_at hstand ((flatMap_def ..).symm.trans hm.symm)
  obtain ⟨m, l, rfl, rfl, hl⟩ := map_eq_append_iff.1 hcut
  obtain ⟨c, l, rfl, -, rfl⟩ := map_eq_cons_iff.1 hl
  exact ⟨⟨m, (flatMap_def ..).symm⟩, ⟨l, (flatMap_def ..).symm⟩⟩

/-- **A surrogate is no character.** -/
theorem not_utf8_surrogate {n : Nat} (h : 0xD800 ≤ n ∧ n < 0xE000) : ¬ Utf8 (utf8 n) := by
  rintro ⟨m, hm⟩
  have hn : utf8 n = [UInt8.ofNat (n / 4096 % 0x10 + 0xE0), UInt8.ofNat (n / 64 % 0x40 + 0x80), UInt8.ofNat (n % 0x40 + 0x80)] := by
    unfold utf8
    rw [if_neg (by omega), if_neg (by omega), if_pos (by omega)]
  cases m with
  | nil => exact absurd (hn.symm.trans hm) (cons_ne_nil _ _)
  | cons c m =>
    rw [hn, flatMap_cons, ← utf8_char] at hm
    have hbyte {k l : Nat} (hkl : UInt8.ofNat k = UInt8.ofNat l) : k % 256 = l % 256 := by
      have := congrArg UInt8.toNat hkl
      rwa [UInt8.toNat_ofNat', UInt8.toNat_ofNat'] at this
    have hvalid := c.valid
    simp only [UInt32.isValidChar, Nat.isValidChar] at hvalid
    change c.toNat < _ ∨ _ < c.toNat ∧ c.toNat < _ at hvalid
    -- the first byte says how many there are, and then they say the code point
    unfold utf8 at hm
    split_ifs at hm <;> simp only [cons_append, nil_append, List.cons.injEq] at hm
    · have := hbyte hm.1
      omega
    · have := hbyte hm.1
      omega
    · have h1 := hbyte hm.1
      have h2 := hbyte hm.2.1
      have h3 := hbyte hm.2.2.1
      omega
    · have := hbyte hm.1
      omega

end Json
end Prose
