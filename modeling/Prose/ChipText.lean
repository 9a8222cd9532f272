import Prose.ClangdJson
import Prose.Trapping
/-!
# ChipText — what the tune reader asks of strings

A Swift string as its `Character`s.  The ASCII ones are themselves; any other one is a number, and what Unicode says of
it is a table (`Unicode`), as is what Foundation makes of a whole string.  Nothing below depends on the tables.
-/
namespace Prose
namespace Chip

open Trapping List
open Clangd (Double toDouble)

/-- A `Character`, up to the canonical equivalence that `==` compares by. -/
inductive Character
  | ascii (c : Char)
  | other (n : Nat)
  deriving DecidableEq

abbrev Text := List Character

def text (s : String) : Text := s.toList.map .ascii

structure Unicode where
  isNumber : Nat → Bool
  wholeNumberValue : Nat → Option Nat
  isLetter : Nat → Bool
  isLowercase : Nat → Bool
  isWhitespace : Nat → Bool
  hexDigitValue : Nat → Option (Fin 16)
  /-- `String(c).uppercased()`, which need not be one character. -/
  uppercased : Nat → Text
  /-- `lowercased()` of a whole string. -/
  lowercased : Text → Text
  /-- `String(decoding: bytes, as: UTF8.self)`; what is no UTF-8 is repaired. -/
  decoding : List UInt8 → Text
  /-- `trimmingCharacters(in: .whitespaces)`. -/
  trimmingCharacters : Text → Text
  /-- Whether the build checks the library's debug preconditions; one with `-O` does not. -/
  debugPreconditions : Bool
  length_decoding : ∀ bytes, (decoding bytes).length ≤ bytes.length
  length_trimmingCharacters : ∀ s, (trimmingCharacters s).length ≤ s.length

namespace Character

variable (u : Unicode)

def isNumber : Character → Bool
  | ascii c => c.isDigit
  | other n => u.isNumber n

def wholeNumberValue : Character → Option Nat
  | ascii c => if c.isDigit then some (c.toNat - 48) else none
  | other n => u.wholeNumberValue n

def isLetter : Character → Bool
  | ascii c => c.isAlpha
  | other n => u.isLetter n

def isLowercase : Character → Bool
  | ascii c => c.isLower
  | other n => u.isLowercase n

def isWhitespace : Character → Bool
  | ascii c => c = ' ' || 9 ≤ c.toNat && c.toNat ≤ 13
  | other n => u.isWhitespace n

def hexDigitValue : Character → Option Nat
  | ascii c =>
    if c.isDigit then some (c.toNat - 48)
    else if 'a' ≤ c ∧ c ≤ 'f' then some (c.toNat - 87)
    else if 'A' ≤ c ∧ c ≤ 'F' then some (c.toNat - 55)
    else none
  | other n => (u.hexDigitValue n).map Fin.val

def uppercased : Character → Text
  | ascii c => [ascii c.toUpper]
  | other n => u.uppercased n

end Character

def digitsValue : Text → Option Nat :=
  List.foldlM (fun n c =>
    match c with
    | .ascii c => if c.isDigit then some (10 * n + (c.toNat - 48)) else none
    | .other _ => none) 0

/-- `Int(s)`: nil for what is no number or does not fit. -/
def int : Text → Option Int
  | .ascii '-' :: c :: s => (digitsValue (c :: s)).bind (fun n => fit (-(n : Int)))
  | .ascii '+' :: c :: s => (digitsValue (c :: s)).bind (fun n => fit n)
  | c :: s               => (digitsValue (c :: s)).bind (fun n => fit n)
  | []                   => none

/-- `split(whereSeparator:)`, empty parts left out. -/
def split (isSeparator : Character → Bool) (s : Text) : List Text := (s.splitOnP isSeparator).filter (· ≠ [])

/-- `split(separator: "/", maxSplits: 1)`. -/
def splitOnce (s : Text) : List Text :=
  let s := s.dropWhile (· = .ascii '/')
  [s.takeWhile (· ≠ .ascii '/'), (s.dropWhile (· ≠ .ascii '/')).drop 1].filter (· ≠ [])

/-- `Double(n) / Double(d) < 0.75`, for `d` at least 1. -/
def ratioBelow (n d : Int) : Bool :=
  match toDouble n, toDouble d with
  | .finite x, .finite y =>
    match toDouble (x / y) with
    | .finite z   => z < 3 / 4
    | .infinite b => b
  | _, _ => false

def Unicode.plain : Unicode where
  isNumber _ := false
  wholeNumberValue _ := none
  isLetter _ := false
  isLowercase _ := false
  isWhitespace _ := false
  hexDigitValue _ := none
  uppercased n := [.other n]
  lowercased := List.map (fun c =>
    match c with
    | .ascii c => .ascii c.toLower
    | .other n => .other n)
  decoding := List.map (fun b => if b < 128 then .ascii (Char.ofNat b.toNat) else .other b.toNat)
  trimmingCharacters s :=
    ((s.dropWhile (fun c => c = .ascii ' ' || c = .ascii '\t')).reverse.dropWhile
      (fun c => c = .ascii ' ' || c = .ascii '\t')).reverse
  debugPreconditions := false
  length_decoding bytes := by simp
  length_trimmingCharacters s := by
    rw [length_reverse]
    refine (length_dropWhile_le _ _).trans ?_
    rw [length_reverse]
    exact length_dropWhile_le _ _

example : int (text "-12") = some (-12) ∧ int (text "9223372036854775808") = none ∧ int (text "+") = none := by
  decide

end Chip
end Prose
