import Mathlib.Order.Bounds.Defs
import Prose.ClangdLsp
import Prose.LayoutChars
/-!
# ClangdColumns — columns in bytes and in UTF-16

`Utf16FromByte` and `ByteFromUtf16` of `lsp.cpp`.  A string is what stands before its NUL; reading behind that is `none`.
-/
namespace Prose
namespace Clangd

open List

/-- What a `const char*` points to, up to its NUL. -/
abbrev CString := { s : Bytes // 0 ∉ s }

def announced (c : UInt8) : Nat :=
  if c < 0x80 then 1
  else if c &&& 0xE0 = 0xC0 then 2
  else if c &&& 0xF0 = 0xE0 then 3
  else if c &&& 0xF8 = 0xF0 then 4
  else 1

theorem announced_pos (c : UInt8) : 0 < announced c := by
  unfold announced
  split_ifs <;> decide

theorem lt_of_read {s : Bytes} {i : Nat} {c : UInt8} (h : (s ++ [0])[i]? = some c) : i ≤ s.length := by
  obtain ⟨hlt, -⟩ := List.getElem?_eq_some_iff.1 h
  rw [length_append] at hlt
  exact Nat.le_of_lt_succ hlt

/-! ## The loops -/

def utf16Loop (s : Bytes) (byteCol : Int) (units i : Nat) : Option Nat :=
  match _h : (s ++ [0])[i]? with
  | none => none
  | some c =>
    if c = 0 ∨ ¬ (i : Int) < byteCol then some units
    else
      -- a surrogate pair
      let units := if announced c = 4 then units + 1 else units
      if ((i + announced c : Nat) : Int) > byteCol then some units
      else utf16Loop s byteCol (units + 1) (i + announced c)
termination_by s.length + 1 - i
decreasing_by
  have h1 := lt_of_read _h
  have h2 := announced_pos c
  omega

def utf16FromByte (s : Bytes) (byteCol : Int) : Option Nat := utf16Loop s byteCol 0 0

def byteLoop (s : Bytes) (utf16Col : Int) (units i : Nat) : Option Nat :=
  match _h : (s ++ [0])[i]? with
  | none => none
  | some c =>
    if c = 0 ∨ ¬ (units : Int) < utf16Col then some i
    else byteLoop s utf16Col ((if announced c = 4 then units + 1 else units) + 1) (i + announced c)
termination_by s.length + 1 - i
decreasing_by
  have h1 := lt_of_read _h
  have h2 := announced_pos c
  omega

def byteFromUtf16 (s : Bytes) (utf16Col : Int) : Option Nat := byteLoop s utf16Col 0 0

/-! ## One turn -/

section
variable {s : Bytes} {col : Int} {units i : Nat}

def unitsOf (c : UInt8) : Nat := if announced c = 4 then 2 else 1

theorem units_add (c : UInt8) (units : Nat) : (if announced c = 4 then units + 1 else units) + 1 = units + unitsOf c := by
  unfold unitsOf
  split <;> rfl

theorem read_end (s : Bytes) : (s ++ [0])[s.length]? = some 0 := by
  rw [getElem?_append_right (Nat.le_refl _), Nat.sub_self]
  rfl

theorem read_in {c : UInt8} (h : s[i]? = some c) : (s ++ [0])[i]? = some c := by
  rw [getElem?_append_left (List.getElem?_eq_some_iff.1 h).1, h]

theorem utf16Loop_behind (h : s.length < i) : utf16Loop s col units i = none := by
  rw [utf16Loop.eq_def]
  split
  · rfl
  · rename_i hread
    exact absurd (lt_of_read hread) (Nat.not_le.2 h)

theorem utf16Loop_end : utf16Loop s col units s.length = some units := by
  rw [utf16Loop.eq_def]
  split
  · rename_i hread
    rw [read_end] at hread
    cases hread
  · rename_i c hread
    rw [read_end] at hread
    exact if_pos (Or.inl (Option.some.inj hread).symm)

theorem utf16Loop_char {c : UInt8} (h : s[i]? = some c) (hc : c ≠ 0) : utf16Loop s col units i =
    if col ≤ i then some units
    else if col < i + announced c then some (units + (unitsOf c - 1))
    else utf16Loop s col (units + unitsOf c) (i + announced c) := by
  rw [utf16Loop.eq_def]
  split
  · rename_i hread
    rw [read_in h] at hread
    cases hread
  rename_i c' hread
  rw [read_in h] at hread
  cases hread
  dsimp only
  rw [units_add]
  by_cases h1 : col ≤ i
  · rw [if_pos h1, if_pos (Or.inr (not_lt.2 h1))]
  rw [if_neg h1, if_neg (not_or.2 ⟨hc, not_not.2 (not_le.1 h1)⟩), Nat.cast_add]
  refine if_congr Iff.rfl (congrArg some ?_) rfl
  unfold unitsOf
  split <;> rfl

theorem byteLoop_behind (h : s.length < i) : byteLoop s col units i = none := by
  rw [byteLoop.eq_def]
  split
  · rfl
  · rename_i hread
    exact absurd (lt_of_read hread) (Nat.not_le.2 h)

theorem byteLoop_end : byteLoop s col units s.length = some s.length := by
  rw [byteLoop.eq_def]
  split
  · rename_i hread
    rw [read_end] at hread
    cases hread
  · rename_i c hread
    rw [read_end] at hread
    exact if_pos (Or.inl (Option.some.inj hread).symm)

theorem byteLoop_char {c : UInt8} (h : s[i]? = some c) (hc : c ≠ 0) : byteLoop s col units i =
    if col ≤ units then some i else byteLoop s col (units + unitsOf c) (i + announced c) := by
  rw [byteLoop.eq_def]
  split
  · rename_i hread
    rw [read_in h] at hread
    cases hread
  rename_i c' hread
  rw [read_in h] at hread
  cases hread
  rw [units_add]
  by_cases h1 : col ≤ units
  · rw [if_pos h1, if_pos (Or.inr (not_lt.2 h1))]
  · rw [if_neg h1, if_neg (not_or.2 ⟨hc, not_not.2 (not_le.1 h1)⟩)]

end

/-! ## Where the loops read -/

/-- The places the loops come to from one, and the units before them, by what the first bytes announce. -/
inductive Starts (s : Bytes) : Nat → Nat → Nat → Nat → Prop
  | here (units i : Nat) : Starts s units i units i
  | next {units i u j : Nat} {c : UInt8} : s[i]? = some c → Starts s (units + unitsOf c) (i + announced c) u j →
      Starts s units i u j

theorem Starts.le {s : Bytes} {units i u j : Nat} (h : Starts s units i u j) : units ≤ u ∧ i ≤ j := by
  induction h with
  | here => exact ⟨Nat.le_refl _, Nat.le_refl _⟩
  | next _ _ ih => exact ⟨Nat.le_trans (Nat.le_add_right _ _) ih.1, Nat.le_trans (Nat.le_add_right _ _) ih.2⟩

theorem Starts.at_end {s : Bytes} {units u j : Nat} (h : Starts s units s.length u j) : units = u ∧ s.length = j := by
  cases h with
  | here => exact ⟨rfl, rfl⟩
  | next hread _ => exact absurd (List.getElem?_eq_some_iff.1 hread).1 (Nat.lt_irrefl _)

/-- A character that announces more bytes than the string has is begun only where `P` holds. -/
def CutOnly (s : Bytes) (P : Nat → Nat → UInt8 → Prop) (units i : Nat) : Prop :=
  ∀ u j c, Starts s units i u j → s[j]? = some c → s.length < j + announced c → P u j c

section
variable {s : Bytes} {P : Nat → Nat → UInt8 → Prop} {units i : Nat}

theorem cutOnly_end : CutOnly s P units s.length := by
  intro u j c hstarts hread _
  obtain ⟨-, rfl⟩ := hstarts.at_end
  exact absurd (List.getElem?_eq_some_iff.1 hread).1 (Nat.lt_irrefl _)

theorem cutOnly_char {c : UInt8} (h : s[i]? = some c) :
    CutOnly s P units i ↔ (s.length < i + announced c → P units i c) ∧ CutOnly s P (units + unitsOf c) (i + announced c) := by
  constructor
  · exact fun hcut => ⟨hcut units i c (.here _ _) h, fun u j c' hstarts => hcut u j c' (.next h hstarts)⟩
  · rintro ⟨hhere, hrest⟩ u j c' hstarts hread hlong
    cases hstarts with
    | here =>
      rw [h] at hread
      cases hread
      exact hhere hlong
    | next hi hstarts =>
      rw [h] at hi
      cases hi
      exact hrest u j c' hstarts hread hlong

end

variable (s : CString) (col : Int)

theorem ne_zero_of_read {s : CString} {i : Nat} {c : UInt8} (h : s.1[i]? = some c) : c ≠ 0 := by
  intro hc
  rw [hc] at h
  exact s.2 (mem_of_getElem? h)

/-- `Utf16FromByte` stays in the string exactly if a character that is cut off is announced to reach behind the column. -/
theorem utf16Loop_isSome_iff (units i : Nat) (hi : i ≤ s.1.length) : (utf16Loop s.1 col units i).isSome ↔
    CutOnly s.1 (fun _ j c => col < j + announced c) units i := by
  rcases Nat.lt_or_eq_of_le hi with hlt | rfl
  · have hread := getElem?_eq_getElem hlt
    generalize s.1[i] = c at hread
    have hpos := announced_pos c
    rw [utf16Loop_char hread (ne_zero_of_read hread)]
    by_cases h1 : col < i + announced c
    · -- the walk goes no further than the column
      refine iff_of_true (by split_ifs <;> rfl) fun u j c' hstarts hread' _ => ?_
      have hpos' := announced_pos c'
      cases hstarts with
      | here =>
        rw [hread] at hread'
        cases hread'
        exact h1
      | next hi' hstarts =>
        rw [hread] at hi'
        cases hi'
        have hle := hstarts.le.2
        omega
    · rw [if_neg (by omega), if_neg h1, cutOnly_char hread]
      by_cases hlong : s.1.length < i + announced c
      · rw [utf16Loop_behind hlong]
        exact iff_of_false Bool.false_ne_true fun h => h1 (h.1 hlong)
      · rw [utf16Loop_isSome_iff _ _ (Nat.not_lt.1 hlong), and_iff_right (fun h => absurd h hlong)]
  · rw [utf16Loop_end]
    exact iff_of_true rfl cutOnly_end
termination_by s.1.length - i

/-- `ByteFromUtf16` does exactly if a character that is cut off is begun at the column. -/
theorem byteLoop_isSome_iff (units i : Nat) (hi : i ≤ s.1.length) : (byteLoop s.1 col units i).isSome ↔
    CutOnly s.1 (fun u _ _ => col ≤ u) units i := by
  rcases Nat.lt_or_eq_of_le hi with hlt | rfl
  · have hread := getElem?_eq_getElem hlt
    generalize s.1[i] = c at hread
    have hpos := announced_pos c
    rw [byteLoop_char hread (ne_zero_of_read hread)]
    by_cases h1 : col ≤ units
    · rw [if_pos h1]
      refine iff_of_true rfl fun u j c' hstarts _ _ => ?_
      have hle := hstarts.le.1
      omega
    rw [if_neg h1, cutOnly_char hread]
    by_cases hlong : s.1.length < i + announced c
    · rw [byteLoop_behind hlong]
      exact iff_of_false Bool.false_ne_true fun h => h1 (h.1 hlong)
    · rw [byteLoop_isSome_iff _ _ (Nat.not_lt.1 hlong), and_iff_right (fun h => absurd h hlong)]
  · rw [byteLoop_end]
    exact iff_of_true rfl cutOnly_end
termination_by s.1.length - i

theorem byteLoop_le {s : CString} {col : Int} {units i b : Nat} (hi : i ≤ s.1.length) (h : byteLoop s.1 col units i = some b) :
    b ≤ s.1.length := by
  rcases Nat.lt_or_eq_of_le hi with hlt | rfl
  · have hread := getElem?_eq_getElem hlt
    generalize s.1[i] = c at hread
    have hpos := announced_pos c
    rw [byteLoop_char hread (ne_zero_of_read hread)] at h
    split at h
    · exact Option.some.inj h ▸ hi
    by_cases hlong : s.1.length < i + announced c
    · rw [byteLoop_behind hlong] at h
      cases h
    · exact byteLoop_le (Nat.not_lt.1 hlong) h
  · rw [byteLoop_end] at h
    exact (Option.some.inj h).ge
termination_by s.1.length - i

/-- **The loops read no byte behind the NUL if and only if every character that is cut off by the end of the line** is
announced to reach behind the byte column, and begins at the UTF-16 column or behind it. -/
theorem reads_inside_iff (byteCol utf16Col : Int) :
    ((∃ units, utf16FromByte s.1 byteCol = some units) ↔
      ∀ u i c, Starts s.1 0 0 u i → s.1[i]? = some c → s.1.length < i + announced c → byteCol < i + announced c) ∧
    ((∃ i, byteFromUtf16 s.1 utf16Col = some i ∧ i ≤ s.1.length) ↔
      ∀ u i c, Starts s.1 0 0 u i → s.1[i]? = some c → s.1.length < i + announced c → utf16Col ≤ u) := by
  constructor
  · rw [← Option.isSome_iff_exists]
    exact utf16Loop_isSome_iff s byteCol 0 0 (Nat.zero_le _)
  · have hsome : (∃ i, byteFromUtf16 s.1 utf16Col = some i ∧ i ≤ s.1.length) ↔ (byteFromUtf16 s.1 utf16Col).isSome := by
      rw [Option.isSome_iff_exists]
      exact exists_congr fun i => and_iff_left_of_imp (byteLoop_le (Nat.zero_le _))
    exact hsome.trans (byteLoop_isSome_iff s utf16Col 0 0 (Nat.zero_le _))

/-- An é of Latin-1 at the end of its line is taken for the first of three bytes. -/
def latinE : CString := ⟨[0xE9], by decide⟩

theorem latinE_outside : ¬ ∀ (s : CString) (byteCol utf16Col : Int), (∃ units, utf16FromByte s.1 byteCol = some units) ∧
    ∃ i, byteFromUtf16 s.1 utf16Col = some i ∧ i ≤ s.1.length := by
  intro h
  obtain ⟨-, i, hi, -⟩ := h latinE 0 1
  have hnone : byteFromUtf16 latinE.1 1 = none := by
    unfold byteFromUtf16
    rw [byteLoop_char (c := 0xE9) rfl (by decide), if_neg (by decide)]
    exact byteLoop_behind (by decide)
  rw [hnone] at hi
  cases hi

end Clangd
end Prose
