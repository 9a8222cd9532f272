import Mathlib.Data.List.Basic
import Mathlib.Tactic.IntervalCases
/-!
# BMessage — an ordered typed multimap

A message is its fields in the order they were added, each a name and a value of one of the types; a value may be a
message.  A look-up by name and type sees the values of that name and type only, in their order.
-/
namespace BMessage

/-- A value of a field; `F` stands for the floating-point numbers. -/
inductive Field (F : Type)
  | bool (v : Bool)
  | int8 (v : Int)
  | int32 (v : Int)
  | float (v : F)
  | string (v : List { b : UInt8 // b ≠ 0 })
  | data (v : List UInt8)
  | message (m : List (String × Field F))

end BMessage

abbrev BMessage (F : Type) := List (String × BMessage.Field F)

namespace BMessage

variable {F : Type}

def Field.bool? : Field F → Option Bool
  | .bool v => some v
  | _ => none

def Field.int8? : Field F → Option Int
  | .int8 v => some v
  | _ => none

def Field.int32? : Field F → Option Int
  | .int32 v => some v
  | _ => none

def Field.float? : Field F → Option F
  | .float v => some v
  | _ => none

def Field.string? : Field F → Option (List { b : UInt8 // b ≠ 0 })
  | .string v => some v
  | _ => none

def Field.data? : Field F → Option (List UInt8)
  | .data v => some v
  | _ => none

def Field.message? : Field F → Option (BMessage F)
  | .message m => some m
  | _ => none

section
variable {α : Type} (get : Field F → Option α) (name : String)

/-- The values of a name and a type, what a loop over `Find` at 0, 1, 2 and so on meets before it fails. -/
def all (m : BMessage F) : List α := m.filterMap (fun e => if e.1 = name then get e.2 else none)

/-- `Find` at index 0. -/
def find (m : BMessage F) : Option α := (all get name m).head?

/-- `Find` into a variable that holds `v`. -/
def findD (v : α) (m : BMessage F) : α := (find get name m).getD v

theorem all_append (m m' : BMessage F) : all get name (m ++ m') = all get name m ++ all get name m' :=
  List.filterMap_append

@[simp] theorem find_nil : find get name [] = none := rfl

@[simp] theorem find_cons (n : String) (v : Field F) (m : BMessage F) :
    find get name ((n, v) :: m) = if n = name then (get v).or (find get name m) else find get name m := by
  unfold find all
  rw [List.filterMap_cons]
  by_cases hn : n = name
  · dsimp only
    rw [if_pos hn, if_pos hn]
    cases get v <;> rfl
  · dsimp only
    rw [if_neg hn, if_neg hn]

@[simp] theorem find_append (m m' : BMessage F) : find get name (m ++ m') = (find get name m).or (find get name m') := by
  unfold find
  rw [all_append, List.head?_append]

@[simp] theorem find_ite (c : Prop) [Decidable c] (m : BMessage F) :
    find get name (if c then m else []) = if c then find get name m else none := by
  rw [apply_ite (find get name), find_nil]

variable {β : Type} (f : β → Field F) (l : List β)

theorem all_map : all get name (l.map (fun b => (name, f b))) = l.filterMap (fun b => get (f b)) := by
  unfold all
  rw [List.filterMap_map]
  exact congrArg (List.filterMap · l) (funext fun b => if_pos rfl)

variable {name} in
theorem all_map_of_ne {n : String} (h : n ≠ name) : all get name (l.map (fun b => (n, f b))) = [] := by
  unfold all
  rw [List.filterMap_map]
  exact List.filterMap_eq_nil_iff.2 (fun b _ => if_neg h)

variable {name} in
theorem find_map_of_ne {n : String} (h : n ≠ name) : find get name (l.map (fun b => (n, f b))) = none := by
  unfold find
  rw [all_map_of_ne get f l h]
  rfl

end

/-! ## Four bytes in an `int32` -/

/-- The bytes of an `int32`, the lowest first. -/
def pack (b₀ b₁ b₂ b₃ : UInt8) : Int :=
  (b₀.toUInt32 ||| b₁.toUInt32 <<< 8 ||| b₂.toUInt32 <<< 16 ||| b₃.toUInt32 <<< 24).toInt32.toInt

/-- `(v >> k) & 0xFF`. -/
def byteAt (v : Int) (k : UInt32) : UInt8 := ((Int32.ofInt v).toUInt32 >>> k &&& 0xFF).toUInt8

theorem byteAt_pack (b₀ b₁ b₂ b₃ : UInt8) : byteAt (pack b₀ b₁ b₂ b₃) 0 = b₀ ∧ byteAt (pack b₀ b₁ b₂ b₃) 8 = b₁ ∧
    byteAt (pack b₀ b₁ b₂ b₃) 16 = b₂ ∧ byteAt (pack b₀ b₁ b₂ b₃) 24 = b₃ := by
  unfold byteAt pack
  rw [Int32.ofInt_toInt]
  -- the eight bits of each byte, one by one
  refine ⟨?_, ?_, ?_, ?_⟩ <;> refine UInt8.toBitVec_inj.1 (BitVec.eq_of_getElem_eq fun i hi => ?_) <;>
    interval_cases i <;> simp

end BMessage
