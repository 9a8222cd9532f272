import Mathlib.Data.List.Basic
import Mathlib.Data.UInt
/-!
# PdfLiteral — the literal strings of PDF

What stands between the parentheses: balanced parentheses stand for themselves, a backslash escapes.  The reader takes a byte
at a time; what it holds back is its state.
-/
namespace PdfLiteral

open List

/-- Behind a backslash, among the digits of an octal code, or behind a carriage return, which may begin one end of line. -/
inductive Mode
  | plain
  | escape
  | octal (digits value : Nat)
  | endOfLine

structure State where
  mode : Mode := .plain
  depth : Nat := 0

def isOctal (b : UInt8) : Bool := 48 ≤ b && b ≤ 55

/-- A byte that no escape precedes: what it says, and the state behind it or the end of the string. -/
def plain (depth : Nat) (b : UInt8) : List UInt8 × Option State :=
  if b = 92 then ([], some ⟨.escape, depth⟩)
  else if b = 40 then ([b], some ⟨.plain, depth + 1⟩)
  else if b = 41 then
    match depth with
    | 0 => ([], none)
    | depth + 1 => ([b], some ⟨.plain, depth⟩)
  else if b = 13 then ([10], some ⟨.endOfLine, depth⟩)
  else ([b], some ⟨.plain, depth⟩)

/-- The byte behind a backslash: `\n`, `\r`, `\t`, `\b`, `\f`, an octal code, an end of line that is not part of the string, or
a byte that stands for itself. -/
def escape (depth : Nat) (b : UInt8) : List UInt8 × Option State :=
  if b = 110 then ([10], some ⟨.plain, depth⟩)
  else if b = 114 then ([13], some ⟨.plain, depth⟩)
  else if b = 116 then ([9], some ⟨.plain, depth⟩)
  else if b = 98 then ([8], some ⟨.plain, depth⟩)
  else if b = 102 then ([12], some ⟨.plain, depth⟩)
  else if isOctal b then ([], some ⟨.octal 1 (b.toNat - 48), depth⟩)
  else if b = 10 then ([], some ⟨.plain, depth⟩)
  else if b = 13 then ([], some ⟨.endOfLine, depth⟩)
  else ([b], some ⟨.plain, depth⟩)

def step (s : State) (b : UInt8) : List UInt8 × Option State :=
  match s.mode with
  | .plain => plain s.depth b
  | .escape => escape s.depth b
  | .octal digits value =>
    if isOctal b then
      if digits < 2 then ([], some ⟨.octal (digits + 1) (value * 8 + (b.toNat - 48)), s.depth⟩)
      -- the carry of a code above 377 is dropped
      else ([UInt8.ofNat (value * 8 + (b.toNat - 48))], some ⟨.plain, s.depth⟩)
    else (UInt8.ofNat value :: (plain s.depth b).1, (plain s.depth b).2)
  | .endOfLine => if b = 10 then ([], some ⟨.plain, s.depth⟩) else plain s.depth b

/-- The bytes up to the parenthesis that closes the string, and what is behind it; none if it does not close. -/
def read : State → List UInt8 → Option (List UInt8 × List UInt8)
  | _, []     => none
  | s, b :: t =>
    match step s b with
    | (out, none)   => some (out, t)
    | (out, some s) => (read s t).map (fun r => (out ++ r.1, r.2))

/-- In front of anything, `t` says `out`. -/
def Reads (s : State) (t out : List UInt8) (s' : State) : Prop :=
  ∀ rest, read s (t ++ rest) = (read s' rest).map (fun r => (out ++ r.1, r.2))

theorem Reads.nil (s : State) : Reads s [] [] s := by
  intro rest
  exact (Option.map_id' ..).symm

theorem Reads.cons {s s₁ s₂ : State} {b : UInt8} {t out out' : List UInt8} (hb : step s b = (out, some s₁))
    (ht : Reads s₁ t out' s₂) : Reads s (b :: t) (out ++ out') s₂ := by
  intro rest
  rw [cons_append, read, hb]
  simp only [ht rest, Option.map_map, Function.comp_def, append_assoc]

theorem Reads.one {s s' : State} {b : UInt8} {out : List UInt8} (hb : step s b = (out, some s')) : Reads s [b] out s' := by
  rw [← append_nil out]
  exact .cons hb (.nil s')

theorem Reads.append {s s₁ s₂ : State} {t t' out out' : List UInt8} (ht : Reads s t out s₁) (ht' : Reads s₁ t' out' s₂) :
    Reads s (t ++ t') (out ++ out') s₂ := by
  intro rest
  rw [append_assoc, ht, ht']
  simp only [Option.map_map, Function.comp_def, append_assoc]

theorem Reads.flatMap {α : Type*} {s : State} {f g : α → List UInt8} (h : ∀ a, Reads s (f a) (g a) s) : ∀ l : List α,
    Reads s (l.flatMap f) (l.flatMap g) s
  | []     => .nil s
  | a :: l => (h a).append (Reads.flatMap h l)

/-- **The parenthesis that closes.** -/
theorem Reads.close {s : State} {t out : List UInt8} (h : Reads s t out {}) (rest : List UInt8) :
    read s (t ++ 41 :: rest) = some (out, rest) := by
  have hclose : read {} (41 :: rest) = some ([], rest) := rfl
  rw [h, hclose, Option.map_some, append_nil]

theorem reads_plain {b : UInt8} (h : b ≠ 92 ∧ b ≠ 40 ∧ b ≠ 41 ∧ b ≠ 13) (depth : Nat) : Reads ⟨.plain, depth⟩ [b] [b] ⟨.plain, depth⟩ := by
  apply Reads.one
  simp only [step, plain, if_neg h.1, if_neg h.2.1, if_neg h.2.2.1, if_neg h.2.2.2]

theorem reads_backslash (depth : Nat) : Reads ⟨.plain, depth⟩ [92] [] ⟨.escape, depth⟩ := .one rfl

theorem reads_escape {b : UInt8} (h : b = 40 ∨ b = 41 ∨ b = 92) (depth : Nat) : Reads ⟨.plain, depth⟩ [92, b] [b] ⟨.plain, depth⟩ := by
  have hb : Reads ⟨.escape, depth⟩ [b] [b] ⟨.plain, depth⟩ := by
    rcases h with rfl | rfl | rfl <;> exact .one rfl
  exact (reads_backslash depth).append hb

theorem reads_octal {x y z b : UInt8} (hx : isOctal x) (hy : isOctal y) (hz : isOctal z)
    (hb : b.toNat = ((x.toNat - 48) * 8 + (y.toNat - 48)) * 8 + (z.toNat - 48)) (depth : Nat) :
    Reads ⟨.plain, depth⟩ [92, x, y, z] [b] ⟨.plain, depth⟩ := by
  have hletter : x ≠ 110 ∧ x ≠ 114 ∧ x ≠ 116 ∧ x ≠ 98 ∧ x ≠ 102 := by
    refine ⟨?_, ?_, ?_, ?_, ?_⟩ <;> rintro rfl <;> exact absurd hx (by decide)
  have h1 : Reads ⟨.escape, depth⟩ [x] [] ⟨.octal 1 (x.toNat - 48), depth⟩ := by
    apply Reads.one
    simp only [step, escape, if_neg hletter.1, if_neg hletter.2.1, if_neg hletter.2.2.1, if_neg hletter.2.2.2.1,
      if_neg hletter.2.2.2.2, if_pos hx]
  have h2 : Reads ⟨.octal 1 (x.toNat - 48), depth⟩ [y] [] ⟨.octal 2 ((x.toNat - 48) * 8 + (y.toNat - 48)), depth⟩ := by
    apply Reads.one
    simp only [step, if_pos hy, if_pos (Nat.lt_succ_self 1)]
  have h3 : Reads ⟨.octal 2 ((x.toNat - 48) * 8 + (y.toNat - 48)), depth⟩ [z] [b] ⟨.plain, depth⟩ := by
    apply Reads.one
    simp only [step, if_pos hz, if_neg (Nat.lt_irrefl 2), ← hb, UInt8.ofNat_toNat]
  exact (reads_backslash depth).append (h1.append (h2.append h3))

end PdfLiteral
