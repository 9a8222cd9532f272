import Mathlib.Data.Int.Log
import Mathlib.Data.Rat.Floor
import Prose.ClangdLsp
import Prose.JsonSyntax
/-!
# ClangdJson — the JSON reader and writer

`JVal` of `json.cpp`: the one class that stands for all kinds of values, how it is written and how it is read.
-/
namespace Prose
namespace Clangd

open List

open Json (isBlank hexValue)

/-! ## Numbers -/

/-- A `double` that is a number; `-0` is 0. -/
inductive Double
  | finite (q : Rat)
  | infinite (negative : Bool)
  deriving DecidableEq

def roundEven (q : Rat) : Int :=
  let n := ⌊q⌋
  if q - n < 1 / 2 then n
  else if 1 / 2 < q - n then n + 1
  else if n % 2 = 0 then n
  else n + 1

def toDouble (q : Rat) : Double :=
  if q = 0 then .finite 0
  else
    let e := max (Int.log 2 |q| - 52) (-1074)
    let r : Rat := roundEven (q / 2 ^ e) * 2 ^ e
    if 2 ^ 1024 ≤ |r| then .infinite (q < 0) else .finite r

def sign : Bytes → Bool × Bytes
  | 45 :: s => (true, s)
  | 43 :: s => (false, s)
  | s       => (false, s)

def fraction : Bytes → Bytes × Bytes
  | 46 :: s => (s.takeWhile Decimals.isDigit, s.dropWhile Decimals.isDigit)
  | s       => ([], s)

def exponent : Bytes → Int
  | c :: s =>
    if c = 101 ∨ c = 69 then
      let n : Int := Decimals.value ((sign s).2.takeWhile Decimals.isDigit)
      if (sign s).1 then -n else n
    else 0
  | [] => 0

/-- `strtod` of a decimal number. -/
def strtod (buf : Bytes) : Double :=
  let s := (sign buf).2
  let frac := fraction (s.dropWhile Decimals.isDigit)
  let m := Decimals.value (s.takeWhile Decimals.isDigit ++ frac.1)
  let e := exponent frac.2 - frac.1.length
  if m = 0 then .finite 0
  else if 400 < e then .infinite (sign buf).1
  else if e < -800 then .finite 0
  else toDouble ((if (sign buf).1 then -(m : Rat) else m) * 10 ^ e)

/-- `(int64)`; what does not fit is cut at the ends, as arm64 converts. -/
def toInt64 : Double → Int
  | .finite q   => max (-9223372036854775808) (min 9223372036854775807 (if q < 0 then -⌊-q⌋ else ⌊q⌋))
  | .infinite negative => if negative then -9223372036854775808 else 9223372036854775807

/-! ## Values -/

inductive Kind
  | null | bool | number | string | array | object

structure JVal where
  fKind : Kind := .null
  fBool : Bool := false
  fNumber : Double := .finite 0
  fString : Bytes := []
  fArray : List JVal := []
  fKeys : List Bytes := []

def JVal.ofBool (b : Bool) : JVal := { fKind := .bool, fBool := b }
def JVal.ofNumber (n : Double) : JVal := { fKind := .number, fNumber := n }
def JVal.ofString (s : Bytes) : JVal := { fKind := .string, fString := s }

def JVal.add (j v : JVal) : JVal := { j with fKind := .array, fArray := j.fArray ++ [v] }

def JVal.becomeObject (j : JVal) : JVal := { j with fKind := .object }

def JVal.set (j : JVal) (key : Bytes) (v : JVal) : JVal :=
  match j.fKeys.findIdx? (· = key) with
  | some i => { j with fKind := .object, fArray := j.fArray.set i v }
  | none   => { j with fKind := .object, fKeys := j.fKeys ++ [key], fArray := j.fArray ++ [v] }

/-! ## The writer -/

def hexDigit (n : Nat) : UInt8 := if n < 10 then UInt8.ofNat (48 + n) else UInt8.ofNat (87 + n)

def escapeByte (c : UInt8) : Bytes :=
  if c = 34 then [92, 34]
  else if c = 92 then [92, 92]
  else if c = 10 then [92, 110]
  else if c = 13 then [92, 114]
  else if c = 9 then [92, 116]
  else if c < 32 then [92, 117, 48, 48, hexDigit (c.toNat / 16), hexDigit (c.toNat % 16)]
  else [c]

/-- `JEscape`, of what stands before a NUL. -/
def jescape (text : Bytes) : Bytes := 34 :: ((text.takeWhile (· ≠ 0)).flatMap escapeByte ++ [34])

def decimal (n : Int) : Bytes := if n < 0 then 45 :: Decimals.digits n.natAbs else Decimals.digits n.natAbs

section
variable (print : Double → Bytes)

/-- `print` is what `BString` makes of a `double`. -/
def numberJson (n : Double) : Bytes :=
  if n = toDouble (toInt64 n) then decimal (toInt64 n) else print n

mutual
def JVal.toJson : JVal → Bytes
  | ⟨kind, b, n, s, array, keys⟩ =>
    match kind with
    | .null   => [110, 117, 108, 108]
    | .bool   => if b then [116, 114, 117, 101] else [102, 97, 108, 115, 101]
    | .number => numberJson print n
    | .string => jescape s
    | .array  => 91 :: (elementsJson array ++ [93])
    | .object => 123 :: (membersJson keys array ++ [125])

def elementsJson : List JVal → Bytes
  | []      => []
  | v :: vs => JVal.toJson v ++ (if vs.isEmpty then [] else 44 :: elementsJson vs)

def membersJson : List Bytes → List JVal → Bytes
  | _, []         => []
  | keys, v :: vs =>
    jescape (keys.headD []) ++ 58 :: (JVal.toJson v ++ (if vs.isEmpty then [] else 44 :: membersJson keys.tail vs))
end
end

/-! ## The reader -/

def skipSpace (s : Bytes) : Bytes := s.dropWhile isBlank

/-- The four digits behind `\u`. -/
def parseUnicode : Bytes → Except String (Nat × Bytes)
  | a :: b :: c :: d :: s =>
    match hexValue a, hexValue b, hexValue c, hexValue d with
    | some a, some b, some c, some d =>
      let v := ((a * 16 + b) * 16 + c) * 16 + d
      if 0xDC00 ≤ v ∧ v ≤ 0xDFFF then .error "lone low surrogate" else .ok (v, s)
    | _, _, _, _ => .error "bad hex digit in \\u escape"
  | _ => .error "short \\u escape"

def appendUtf8 (out : Bytes) (cp : Nat) : Option Bytes :=
  if 0x10FFFF < cp then none
  else if cp < 0x80 then some (append out [UInt8.ofNat cp])
  else if cp < 0x800 then some (append out [UInt8.ofNat (0xC0 ||| cp >>> 6), UInt8.ofNat (0x80 ||| cp &&& 0x3F)])
  else if cp < 0x10000 then
    some (append out
      [UInt8.ofNat (0xE0 ||| cp >>> 12), UInt8.ofNat (0x80 ||| cp >>> 6 &&& 0x3F), UInt8.ofNat (0x80 ||| cp &&& 0x3F)])
  else
    some (append out [UInt8.ofNat (0xF0 ||| cp >>> 18), UInt8.ofNat (0x80 ||| cp >>> 12 &&& 0x3F),
      UInt8.ofNat (0x80 ||| cp >>> 6 &&& 0x3F), UInt8.ofNat (0x80 ||| cp &&& 0x3F)])

/-- What the digits behind `\u` come to: with a surrogate's first half, the second that follows. -/
def parseCodePoint (s : Bytes) : Except String (Nat × Bytes) :=
  match parseUnicode s with
  | .error e => .error e
  | .ok (cp, s) =>
    match s with
    | 92 :: 117 :: s' =>
      if 0xD800 ≤ cp ∧ cp ≤ 0xDBFF ∧ 6 ≤ s.length then
        match parseUnicode s' with
        | .error e => .error e
        | .ok (lo, s') =>
          if 0xDC00 ≤ lo ∧ lo ≤ 0xDFFF then .ok (0x10000 + (cp - 0xD800) <<< 10 + (lo - 0xDC00), s')
          else .error "bad low surrogate"
      else .ok (cp, s)
    | _ => .ok (cp, s)

theorem length_parseUnicode {s : Bytes} {cp : Nat} {s' : Bytes} (h : parseUnicode s = .ok (cp, s')) :
    s'.length ≤ s.length := by
  unfold parseUnicode at h
  split at h
  · split at h
    · dsimp only at h
      split at h
      · cases h
      · cases h
        simp only [length_cons]
        omega
    · cases h
  · cases h

theorem length_parseCodePoint {s : Bytes} {cp : Nat} {s' : Bytes} (h : parseCodePoint s = .ok (cp, s')) :
    s'.length ≤ s.length := by
  unfold parseCodePoint at h
  cases h1 : parseUnicode s with
  | error e =>
    rw [h1] at h
    cases h
  | ok r =>
    obtain ⟨cp₁, s₁⟩ := r
    have hl := length_parseUnicode h1
    rw [h1] at h
    dsimp only at h
    split at h
    · rename_i s₂
      rw [length_cons, length_cons] at hl
      split at h
      · cases h2 : parseUnicode s₂ with
        | error e =>
          rw [h2] at h
          cases h
        | ok r₂ =>
          have hl₂ := length_parseUnicode h2
          rw [h2] at h
          dsimp only at h
          split at h
          · obtain ⟨-, rfl⟩ := Prod.mk.inj (Except.ok.inj h)
            omega
          · cases h
      · cases h
        rw [length_cons, length_cons]
        exact hl
    · cases h
      exact hl

/-- `ParseString`, behind the quotation mark. -/
def parseString (out : Bytes) (s : Bytes) : Except String (Bytes × Bytes) :=
  match s with
  | [] => .error "string not closed"
  | c :: s =>
    if c = 34 then .ok (out, s)
    else if c = 92 then
      match s with
      | [] => .error "escape at end of string"
      | e :: s =>
        if e = 117 then
          match _h : parseCodePoint s with
          | .error e => .error e
          | .ok (cp, s') =>
            match appendUtf8 out cp with
            | none => .error "bad code point"
            | some out => parseString out s'
        else
          match Json.escapeValue e with
          | some c => parseString (out ++ [c]) s
          | none => .error "unknown escape"
    else if c < 32 then .error "control character in string"
    else parseString (out ++ [c]) s
termination_by s.length
decreasing_by
  · have := length_parseCodePoint _h
    simp only [length_cons]
    omega
  · simp only [length_cons]
    omega
  · simp only [length_cons]
    omega

theorem length_parseString (out s : Bytes) {key s' : Bytes} (h : parseString out s = .ok (key, s')) :
    s'.length < s.length := by
  fun_induction parseString out s with
  | case1 | case3 | case4 | case5 | case8 | case9 => cases h
  | case2 out s =>
    cases h
    exact Nat.lt_succ_self _
  | case6 out s cp s₁ h1 out' _ _ ih =>
    have hl := length_parseCodePoint h1
    have := ih h
    simp only [length_cons]
    omega
  | case7 out e s _ c _ _ ih =>
    have := ih h
    simp only [length_cons]
    omega
  | case10 out c s _ _ _ ih =>
    have := ih h
    simp only [length_cons]
    omega

theorem length_skipSpace {s : Bytes} {c : UInt8} {s' : Bytes} (h : skipSpace s = c :: s') : s'.length < s.length := by
  have := (dropWhile_suffix isBlank (l := s)).length_le
  unfold skipSpace at h
  rw [h] at this
  exact this

def skipExponent : Bytes → Bytes
  | c :: s => if c = 101 ∨ c = 69 then (sign s).2.dropWhile Decimals.isDigit else c :: s
  | []     => []

def parseNumber (s : Bytes) : Except String (JVal × Bytes) :=
  let int := (sign s).2
  let frac := fraction (int.dropWhile Decimals.isDigit)
  let rest := skipExponent frac.2
  let len := s.length - rest.length
  if int.takeWhile Decimals.isDigit = [] ∧ frac.1 = [] then .error "not a number"
  else if 64 ≤ len then .error "number too long"
  else .ok (.ofNumber (strtod (s.take len)), rest)

def parseLiteral (text : Bytes) (v : JVal) (s : Bytes) : Except String (JVal × Bytes) :=
  if text.isPrefixOf s then .ok (v, s.drop text.length) else .error "bad literal"

mutual
def parseValue (depth : Nat) (s : Bytes) : Except String (JVal × Bytes) :=
  if 64 < depth then .error "nesting deeper than 64"
  else
    match _h : skipSpace s with
    | [] => .error "value expected at end of text"
    | c :: s =>
      if c = 123 then
        match skipSpace s with
        | 125 :: s' => .ok (({} : JVal).becomeObject, s')
        | _ => parseMembers depth ({} : JVal).becomeObject s
      else if c = 91 then
        match skipSpace s with
        | 93 :: s' => .ok ({}, s')
        | _ => parseElements depth {} s
      else if c = 34 then
        match parseString [] s with
        | .error e => .error e
        | .ok (str, s) => .ok (.ofString str, s)
      else if c = 116 then parseLiteral [116, 114, 117, 101] (.ofBool true) (c :: s)
      else if c = 102 then parseLiteral [102, 97, 108, 115, 101] (.ofBool false) (c :: s)
      else if c = 110 then parseLiteral [110, 117, 108, 108] {} (c :: s)
      else parseNumber (c :: s)
termination_by (s.length, 0)
decreasing_by
  all_goals
    have := length_skipSpace _h
    omega

/-- The loop of `ParseArray`. -/
def parseElements (depth : Nat) (out : JVal) (s : Bytes) : Except String (JVal × Bytes) :=
  match parseValue (depth + 1) s with
  | .error e => .error e
  | .ok (v, s') =>
    match skipSpace s' with
    | 44 :: s'' => if _h : s''.length < s.length then parseElements depth (out.add v) s'' else .error ""
    | 93 :: s'' => .ok (out.add v, s'')
    | _ => .error "',' or ']' expected"
termination_by (s.length, 1)
decreasing_by
  · exact Prod.Lex.right _ (by omega)
  · omega

/-- The loop of `ParseObject`. -/
def parseMembers (depth : Nat) (out : JVal) (s : Bytes) : Except String (JVal × Bytes) :=
  match _h : skipSpace s with
  | 34 :: s₁ =>
    match _h₁ : parseString [] s₁ with
    | .error e => .error e
    | .ok (key, s₂) =>
      match _h₂ : skipSpace s₂ with
      | 58 :: s₃ =>
        match parseValue (depth + 1) s₃ with
        | .error e => .error e
        | .ok (v, s₄) =>
          match skipSpace s₄ with
          | 44 :: s₅ => if _h : s₅.length < s.length then parseMembers depth (out.set key v) s₅ else .error ""
          | 125 :: s₅ => .ok (out.set key v, s₅)
          | _ => .error "',' or '\x7d' expected"
      | _ => .error "':' expected"
  | _ => .error "object key expected"
termination_by (s.length, 1)
decreasing_by
  · have := length_skipSpace _h
    have := length_parseString _ _ _h₁
    have := length_skipSpace _h₂
    omega
  · omega
end

def jparse (text : Bytes) : Except String JVal :=
  match parseValue 0 text with
  | .error e => .error e
  | .ok (v, s) => if skipSpace s = [] then .ok v else .error "text after the document"

end Clangd
end Prose
