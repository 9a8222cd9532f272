import Prose.Decimals
import Prose.Scan
/-!
# JsonSyntax — the texts of RFC 8259

The syntax trees of a JSON text, with their blanks; what a text is that the RFC allows; and what its strings denote.  A
tree takes any token for a number, so that readers which allow more numbers than the RFC have their trees too.
-/
namespace Prose
namespace Json

open List

abbrev Bytes := List UInt8

/-! ## Trees -/

def isBlank (c : UInt8) : Bool := c = 32 || c = 9 || c = 10 || c = 13

abbrev Blank := { w : Bytes // ∀ c ∈ w, isBlank c }

def hexValue (c : UInt8) : Option Nat :=
  if 48 ≤ c ∧ c ≤ 57 then some (c.toNat - 48)
  else if 97 ≤ c ∧ c ≤ 102 then some (c.toNat - 97 + 10)
  else if 65 ≤ c ∧ c ≤ 70 then some (c.toNat - 65 + 10)
  else none

abbrev HexDigit := { c : UInt8 // (hexValue c).isSome }

def escapeValue (c : UInt8) : Option UInt8 :=
  if c = 34 then some 34
  else if c = 92 then some 92
  else if c = 47 then some 47
  else if c = 98 then some 8
  else if c = 102 then some 12
  else if c = 110 then some 10
  else if c = 114 then some 13
  else if c = 116 then some 9
  else none

inductive Item
  | plain (c : { c : UInt8 // 32 ≤ c ∧ c ≠ 34 ∧ c ≠ 92 })
  | escape (c : { c : UInt8 // (escapeValue c).isSome })
  | unicode (a b c d : HexDigit)

inductive Literal
  | null | true | false

/-- What a tree is of: a value, or what stands between the brackets of an array or an object. -/
inductive Part
  | value | elements | members

inductive Tree : Part → Type
  | literal (l : Literal) : Tree .value
  | number (token : Bytes) : Tree .value
  | string (s : List Item) : Tree .value
  | emptyArray (w : Blank) : Tree .value
  | array (e : Tree .elements) : Tree .value
  | emptyObject (w : Blank) : Tree .value
  | object (m : Tree .members) : Tree .value
  | element (before : Blank) (v : Tree .value) (after : Blank) : Tree .elements
  | elements (before : Blank) (v : Tree .value) (after : Blank) (more : Tree .elements) : Tree .elements
  | member (before : Blank) (key : List Item) (colon before' : Blank) (v : Tree .value) (after : Blank) : Tree .members
  | members (before : Blank) (key : List Item) (colon before' : Blank) (v : Tree .value) (after : Blank)
      (more : Tree .members) : Tree .members

def Literal.text : Literal → Bytes
  | .null  => [110, 117, 108, 108]
  | .true  => [116, 114, 117, 101]
  | .false => [102, 97, 108, 115, 101]

def Item.text : Item → Bytes
  | .plain c         => [c.1]
  | .escape c        => [92, c.1]
  | .unicode a b c d => [92, 117, a.1, b.1, c.1, d.1]

def quoted (s : List Item) : Bytes := 34 :: (s.flatMap Item.text ++ [34])

def Tree.text : {p : Part} → Tree p → Bytes
  | _, .literal l                                  => l.text
  | _, .number token                               => token
  | _, .string s                                   => quoted s
  | _, .emptyArray w                               => 91 :: (w.1 ++ [93])
  | _, .array e                                    => 91 :: (e.text ++ [93])
  | _, .emptyObject w                              => 123 :: (w.1 ++ [125])
  | _, .object m                                   => 123 :: (m.text ++ [125])
  | _, .element before v after                     => before.1 ++ (v.text ++ after.1)
  | _, .elements before v after more               => before.1 ++ (v.text ++ (after.1 ++ 44 :: more.text))
  | _, .member before key colon before' v after    =>
    before.1 ++ (quoted key ++ (colon.1 ++ 58 :: (before'.1 ++ (v.text ++ after.1))))
  | _, .members before key colon before' v after more =>
    before.1 ++ (quoted key ++ (colon.1 ++ 58 :: (before'.1 ++ (v.text ++ (after.1 ++ 44 :: more.text)))))

def Tree.depth : {p : Part} → Tree p → Nat
  | _, .literal _ | _, .number _ | _, .string _ | _, .emptyArray _ | _, .emptyObject _ => 0
  | _, .array e                     => e.depth + 1
  | _, .object m                    => m.depth + 1
  | _, .element _ v _               => v.depth
  | _, .elements _ v _ more         => max v.depth more.depth
  | _, .member _ _ _ _ v _          => v.depth
  | _, .members _ _ _ _ v _ more    => max v.depth more.depth

def Tree.numbers : {p : Part} → Tree p → List Bytes
  | _, .literal _ | _, .string _ | _, .emptyArray _ | _, .emptyObject _ => []
  | _, .number token                => [token]
  | _, .array e                     => e.numbers
  | _, .object m                    => m.numbers
  | _, .element _ v _               => v.numbers
  | _, .elements _ v _ more         => v.numbers ++ more.numbers
  | _, .member _ _ _ _ v _          => v.numbers
  | _, .members _ _ _ _ v _ more    => v.numbers ++ more.numbers

def Tree.strings : {p : Part} → Tree p → List (List Item)
  | _, .literal _ | _, .number _ | _, .emptyArray _ | _, .emptyObject _ => []
  | _, .string s                    => [s]
  | _, .array e                     => e.strings
  | _, .object m                    => m.strings
  | _, .element _ v _               => v.strings
  | _, .elements _ v _ more         => v.strings ++ more.strings
  | _, .member _ key _ _ v _        => key :: v.strings
  | _, .members _ key _ _ v _ more  => key :: (v.strings ++ more.strings)

structure Document where
  before : Blank
  value : Tree .value
  after : Blank

def Document.text (d : Document) : Bytes := d.before.1 ++ (d.value.text ++ d.after.1)

/-! ## What the RFC allows -/

/-- `exp = e [ minus / plus ] 1*DIGIT`, or nothing. -/
def RfcExp (t : Bytes) : Prop :=
  t = [] ∨ ∃ e sign ds, t = e :: (sign ++ ds) ∧ (e = 101 ∨ e = 69) ∧ (sign = [] ∨ sign = [45] ∨ sign = [43]) ∧ ds ≠ [] ∧
    ∀ c ∈ ds, Decimals.isDigit c

/-- `frac = decimal-point 1*DIGIT`, or nothing. -/
def RfcFrac (t : Bytes) : Prop := t = [] ∨ ∃ ds, t = 46 :: ds ∧ ds ≠ [] ∧ ∀ c ∈ ds, Decimals.isDigit c

/-- `int = zero / ( digit1-9 *DIGIT )` -/
def RfcInt (t : Bytes) : Prop :=
  t = [48] ∨ ∃ d ds, t = d :: ds ∧ Decimals.isDigit d ∧ d ≠ 48 ∧ ∀ c ∈ ds, Decimals.isDigit c

/-- `number = [ minus ] int [ frac ] [ exp ]` -/
def RfcNumber (t : Bytes) : Prop :=
  ∃ minus int frac exp, t = minus ++ (int ++ (frac ++ exp)) ∧ (minus = [] ∨ minus = [45]) ∧ RfcInt int ∧ RfcFrac frac ∧
    RfcExp exp

def Utf8 (t : Bytes) : Prop := ∃ cs : List Char, t = cs.flatMap String.utf8EncodeChar

/-- The RFC allows it: its numbers are the RFC's, and it is written in UTF-8. -/
def Document.Rfc (d : Document) : Prop := (∀ n ∈ d.value.numbers, RfcNumber n) ∧ Utf8 d.text

/-! ## What strings denote -/

def HexDigit.value (c : HexDigit) : Nat := (hexValue c.1).get c.2

/-- The UTF-16 unit of `\uXXXX`. -/
def unit (a b c d : HexDigit) : Nat := ((a.value * 16 + b.value) * 16 + c.value) * 16 + d.value

def isHigh (u : Nat) : Bool := 0xD800 ≤ u && u ≤ 0xDBFF
def isLow (u : Nat) : Bool := 0xDC00 ≤ u && u ≤ 0xDFFF

/-- UTF-8 of a code point; of a surrogate that has no other half, in the same manner. -/
def utf8 (n : Nat) : Bytes :=
  if n ≤ 0x7F then [UInt8.ofNat n]
  else if n ≤ 0x7FF then [UInt8.ofNat (n / 64 % 0x20 + 0xC0), UInt8.ofNat (n % 0x40 + 0x80)]
  else if n ≤ 0xFFFF then
    [UInt8.ofNat (n / 4096 % 0x10 + 0xE0), UInt8.ofNat (n / 64 % 0x40 + 0x80), UInt8.ofNat (n % 0x40 + 0x80)]
  else
    [UInt8.ofNat (n / 262144 % 0x08 + 0xF0), UInt8.ofNat (n / 4096 % 0x40 + 0x80), UInt8.ofNat (n / 64 % 0x40 + 0x80),
      UInt8.ofNat (n % 0x40 + 0x80)]

/-- The UTF-8 of the characters a string denotes; two halves of a pair are one. -/
def denote : List Item → Bytes
  | []                => []
  | .plain c :: s     => c.1 :: denote s
  | .escape c :: s    => (escapeValue c.1).get c.2 :: denote s
  | .unicode a b c d :: .unicode a' b' c' d' :: s =>
    if isHigh (unit a b c d) ∧ isLow (unit a' b' c' d') then
      utf8 (0x10000 + (unit a b c d - 0xD800) * 0x400 + (unit a' b' c' d' - 0xDC00)) ++ denote s
    else utf8 (unit a b c d) ++ denote (.unicode a' b' c' d' :: s)
  | .unicode a b c d :: s => utf8 (unit a b c d) ++ denote s

theorem utf8_char (c : Char) : utf8 c.toNat = String.utf8EncodeChar c := rfl

/-! ## A text has one tree -/

def isNumeric (c : UInt8) : Bool := Decimals.isDigit c || c = 43 || c = 45 || c = 46 || c = 69 || c = 101

def Tree.Numeric {p : Part} (t : Tree p) : Prop := ∀ n ∈ t.numbers, n ≠ [] ∧ ∀ c ∈ n, isNumeric c

def Follow : Part → Bytes → Prop
  | .value, rest    => ∀ c ∈ rest.head?, isBlank c ∨ c = 44 ∨ c = 93 ∨ c = 125
  | .elements, rest => ∃ s, rest = 93 :: s
  | .members, rest  => ∃ s, rest = 125 :: s

theorem not_isNumeric_of_follow {rest : Bytes} (h : Follow .value rest) : ∀ c ∈ rest.head?, isNumeric c = false := by
  intro c hc
  rcases h c hc with hb | rfl | rfl | rfl
  · unfold isBlank at hb
    simp only [Bool.or_eq_true, decide_eq_true_eq] at hb
    rcases hb with ((rfl | rfl) | rfl) | rfl <;> rfl
  · rfl
  · rfl
  · rfl

theorem item_unique {i i' : Item} {s s' : Bytes} (h : i.text ++ s = i'.text ++ s') : i = i' ∧ s = s' := by
  cases i with
  | plain c =>
    cases i' with
    | plain c' =>
      obtain ⟨h1, h2⟩ := List.cons.inj h
      exact ⟨congrArg _ (Subtype.ext h1), h2⟩
    | escape c' => exact absurd (List.cons.inj h).1 c.2.2.2
    | unicode => exact absurd (List.cons.inj h).1 c.2.2.2
  | escape c =>
    cases i' with
    | plain c' => exact absurd (List.cons.inj h).1.symm c'.2.2.2
    | escape c' =>
      obtain ⟨h1, h2⟩ := List.cons.inj (List.cons.inj h).2
      exact ⟨congrArg _ (Subtype.ext h1), h2⟩
    | unicode =>
      have h1 := (List.cons.inj (List.cons.inj h).2).1
      exact absurd c.2 (by rw [h1]; decide)
  | unicode a b c d =>
    cases i' with
    | plain c' => exact absurd (List.cons.inj h).1.symm c'.2.2.2
    | escape c' =>
      have h1 := (List.cons.inj (List.cons.inj h).2).1
      exact absurd c'.2 (by rw [← h1]; decide)
    | unicode a' b' c' d' =>
      simp only [Item.text, cons_append, nil_append, List.cons.injEq, true_and] at h
      obtain ⟨ha, hb, hc, hd, hs⟩ := h
      rw [Subtype.ext ha, Subtype.ext hb, Subtype.ext hc, Subtype.ext hd]
      exact ⟨rfl, hs⟩

theorem item_head (i : Item) (s : Bytes) : ∃ c s', i.text ++ s = c :: s' ∧ c ≠ 34 := by
  cases i with
  | plain c => exact ⟨c.1, s, rfl, c.2.2.1⟩
  | escape c => exact ⟨92, _, rfl, by decide⟩
  | unicode => exact ⟨92, _, rfl, by decide⟩

theorem items_unique : ∀ {s s' : List Item} {r r' : Bytes},
    s.flatMap Item.text ++ 34 :: r = s'.flatMap Item.text ++ 34 :: r' → s = s' ∧ r = r'
  | [], [], r, r', h => ⟨rfl, (List.cons.inj h).2⟩
  | [], i :: s', r, r', h => by
    obtain ⟨c, x, hx, hc⟩ := item_head i (s'.flatMap Item.text ++ 34 :: r')
    rw [flatMap_cons, append_assoc, hx] at h
    exact absurd (List.cons.inj h).1.symm hc
  | i :: s, [], r, r', h => by
    obtain ⟨c, x, hx, hc⟩ := item_head i (s.flatMap Item.text ++ 34 :: r)
    rw [flatMap_cons, append_assoc, hx] at h
    exact absurd (List.cons.inj h).1 hc
  | i :: s, i' :: s', r, r', h => by
    rw [flatMap_cons, flatMap_cons, append_assoc, append_assoc] at h
    obtain ⟨hi, h1⟩ := item_unique h
    obtain ⟨hs, hr⟩ := items_unique h1
    exact ⟨by rw [hi, hs], hr⟩

theorem quoted_append (s : List Item) (r : Bytes) : quoted s ++ r = 34 :: (s.flatMap Item.text ++ 34 :: r) := by
  unfold quoted
  rw [cons_append, append_assoc]
  rfl

theorem quoted_unique {s s' : List Item} {r r' : Bytes} (h : quoted s ++ r = quoted s' ++ r') : s = s' ∧ r = r' := by
  rw [quoted_append, quoted_append] at h
  exact items_unique (List.cons.inj h).2

/-! ### By the first byte -/

inductive Shape
  | literal | number | string | array | object

def Tree.shape : Tree .value → Shape
  | .literal _                  => .literal
  | .number _                   => .number
  | .string _                   => .string
  | .emptyArray _ | .array _    => .array
  | .emptyObject _ | .object _  => .object

def shapeOf (c : UInt8) : Shape :=
  if c = 34 then .string
  else if c = 91 then .array
  else if c = 123 then .object
  else if isNumeric c then .number
  else .literal

theorem isNumeric_iff {c : UInt8} : isNumeric c ↔ Decimals.isDigit c ∨ c = 43 ∨ c = 45 ∨ c = 46 ∨ c = 69 ∨ c = 101 := by
  unfold isNumeric
  simp only [Bool.or_eq_true, decide_eq_true_eq, or_assoc]

theorem ne_of_isNumeric {c c' : UInt8} (h : isNumeric c) (h' : isNumeric c' = false) : c ≠ c' := by
  rintro rfl
  rw [h] at h'
  cases h'

theorem text_head (v : Tree .value) (h : v.Numeric) :
    ∃ c s, v.text = c :: s ∧ isBlank c = false ∧ shapeOf c = v.shape := by
  cases v with
  | literal l => cases l <;> exact ⟨_, _, rfl, rfl, rfl⟩
  | number token =>
    obtain ⟨hne, hall⟩ := h token (mem_singleton_self _)
    obtain ⟨c, s, rfl⟩ := exists_cons_of_ne_nil hne
    have hc := hall c mem_cons_self
    have hn : ∀ c', isNumeric c' = false → c ≠ c' := fun c' h' => ne_of_isNumeric hc h'
    refine ⟨c, s, rfl, ?_, ?_⟩
    · unfold isBlank
      rw [decide_eq_false (hn 32 rfl), decide_eq_false (hn 9 rfl), decide_eq_false (hn 10 rfl),
        decide_eq_false (hn 13 rfl)]
      rfl
    · unfold shapeOf
      rw [if_neg (hn 34 rfl), if_neg (hn 91 rfl), if_neg (hn 123 rfl), if_pos hc]
      rfl
  | string s => exact ⟨34, _, rfl, rfl, rfl⟩
  | emptyArray w => exact ⟨91, _, rfl, rfl, rfl⟩
  | array e => exact ⟨91, _, rfl, rfl, rfl⟩
  | emptyObject w => exact ⟨123, _, rfl, rfl, rfl⟩
  | object m => exact ⟨123, _, rfl, rfl, rfl⟩

theorem shape_unique {v v' : Tree .value} (h : v.Numeric) (h' : v'.Numeric) {r r' : Bytes}
    (he : v.text ++ r = v'.text ++ r') : v.shape = v'.shape := by
  obtain ⟨c, s, hs, -, hc⟩ := text_head v h
  obtain ⟨c', s', hs', -, hc'⟩ := text_head v' h'
  rw [hs, hs'] at he
  rw [← hc, ← hc', (List.cons.inj he).1]

theorem not_isBlank_value {v : Tree .value} (h : v.Numeric) (r : Bytes) : ∀ c ∈ (v.text ++ r).head?, isBlank c = false := by
  obtain ⟨c, s, hs, hc, -⟩ := text_head v h
  rw [hs]
  intro c' hc'
  rw [← Option.some.inj hc']
  exact hc

theorem not_isBlank_cons {c : UInt8} (h : isBlank c = false) (s : Bytes) : ∀ c' ∈ (c :: s).head?, isBlank c' = false := by
  intro c' hc'
  rw [← Option.some.inj hc']
  exact h

theorem blank_unique {w w' : Blank} {s s' : Bytes} (hs : ∀ c ∈ s.head?, isBlank c = false)
    (hs' : ∀ c ∈ s'.head?, isBlank c = false) (h : w.1 ++ s = w'.1 ++ s') : w = w' ∧ s = s' := by
  obtain ⟨hw, hr⟩ := Scan.span_unique w.2 w'.2 hs hs' h
  exact ⟨Subtype.ext hw, hr⟩

theorem follow_blank (w : Blank) {rest : Bytes} (h : Follow .value rest) : Follow .value (w.1 ++ rest) := by
  obtain ⟨w, hw⟩ := w
  cases w with
  | nil => exact h
  | cons c w =>
    intro c' hc'
    rw [← Option.some.inj hc']
    exact Or.inl (hw c mem_cons_self)

theorem follow_cons {c : UInt8} (h : c = 44 ∨ c = 93 ∨ c = 125) (s : Bytes) : Follow .value (c :: s) := by
  intro c' hc'
  rw [← Option.some.inj hc']
  exact Or.inr h

/-! ### The trees -/

theorem quoted_head (s : List Item) (r : Bytes) : ∀ c ∈ (quoted s ++ r).head?, isBlank c = false :=
  not_isBlank_cons (by decide) _

theorem text_head_ne {v : Tree .value} (h : v.Numeric) : ∃ c s, v.text = c :: s ∧ isBlank c = false ∧ c ≠ 93 := by
  obtain ⟨c, s, hs, hb, hc⟩ := text_head v h
  refine ⟨c, s, hs, hb, ?_⟩
  rintro rfl
  cases v with
  | literal l => cases l <;> cases (List.cons.inj hs).1
  | _ => cases hc

theorem elements_head : ∀ (e : Tree .elements), e.Numeric →
    ∃ (w : Blank) (c : UInt8) (s : Bytes), e.text = w.1 ++ c :: s ∧ isBlank c = false ∧ c ≠ 93
  | .element before v after, h => by
    obtain ⟨c, s, hs, hc⟩ := text_head_ne (v := v) h
    refine ⟨before, c, s ++ after.1, ?_, hc⟩
    rw [Tree.text, hs, cons_append]
  | .elements before v after more, h => by
    obtain ⟨c, s, hs, hc⟩ := text_head_ne (v := v) (fun n hn => h n (mem_append_left _ hn))
    refine ⟨before, c, s ++ (after.1 ++ 44 :: more.text), ?_, hc⟩
    rw [Tree.text, hs, cons_append]

theorem members_head : ∀ m : Tree .members, ∃ (w : Blank) (s : Bytes), m.text = w.1 ++ 34 :: s
  | .member before key _ _ _ _    => ⟨before, _, by rw [Tree.text, quoted_append]⟩
  | .members before key _ _ _ _ _ => ⟨before, _, by rw [Tree.text, quoted_append]⟩

theorem emptyArray_ne {w : Blank} {e : Tree .elements} (h : e.Numeric) {r r' : Bytes} :
    w.1 ++ 93 :: r ≠ e.text ++ r' := by
  obtain ⟨w', c, s, hs, hb, hc⟩ := elements_head e h
  intro he
  rw [hs, append_assoc, cons_append] at he
  obtain ⟨-, he⟩ := blank_unique (not_isBlank_cons (by decide) _) (not_isBlank_cons hb _) he
  exact hc (List.cons.inj he).1.symm

theorem emptyObject_ne {w : Blank} {m : Tree .members} {r r' : Bytes} : w.1 ++ 125 :: r ≠ m.text ++ r' := by
  obtain ⟨w', s, hs⟩ := members_head m
  intro he
  rw [hs, append_assoc, cons_append] at he
  obtain ⟨-, he⟩ := blank_unique (not_isBlank_cons (by decide) _) (not_isBlank_cons (by decide) _) he
  exact absurd (List.cons.inj he).1 (by decide)

theorem padded_unique {v v' : Tree .value} (h : v.Numeric) (h' : v'.Numeric)
    (ih : ∀ {r r' : Bytes}, Follow .value r → Follow .value r' → v.text ++ r = v'.text ++ r' → v = v' ∧ r = r')
    {before before' after after' : Blank} {c c' : UInt8} {s s' : Bytes} (hc : c = 44 ∨ c = 93 ∨ c = 125)
    (hc' : c' = 44 ∨ c' = 93 ∨ c' = 125)
    (he : before.1 ++ (v.text ++ (after.1 ++ c :: s)) = before'.1 ++ (v'.text ++ (after'.1 ++ c' :: s'))) :
    before = before' ∧ v = v' ∧ after = after' ∧ c = c' ∧ s = s' := by
  have hb : ∀ {c : UInt8}, c = 44 ∨ c = 93 ∨ c = 125 → isBlank c = false := by
    rintro c (rfl | rfl | rfl) <;> rfl
  obtain ⟨h1, he⟩ := blank_unique (not_isBlank_value h _) (not_isBlank_value h' _) he
  obtain ⟨h2, he⟩ := ih (follow_blank after (follow_cons hc s)) (follow_blank after' (follow_cons hc' s')) he
  obtain ⟨h3, he⟩ := blank_unique (not_isBlank_cons (hb hc) _) (not_isBlank_cons (hb hc') _) he
  obtain ⟨h4, h5⟩ := List.cons.inj he
  exact ⟨h1, h2, h3, h4, h5⟩

theorem key_unique {before before' colon colon' : Blank} {key key' : List Item} {s s' : Bytes}
    (he : before.1 ++ (quoted key ++ (colon.1 ++ 58 :: s)) = before'.1 ++ (quoted key' ++ (colon'.1 ++ 58 :: s'))) :
    before = before' ∧ key = key' ∧ colon = colon' ∧ s = s' := by
  obtain ⟨h1, he⟩ := blank_unique (quoted_head key _) (quoted_head key' _) he
  obtain ⟨h2, he⟩ := quoted_unique he
  obtain ⟨h3, he⟩ := blank_unique (not_isBlank_cons (by decide) _) (not_isBlank_cons (by decide) _) he
  exact ⟨h1, h2, h3, (List.cons.inj he).2⟩

/-- **A text has one tree**, and ends where it ends. -/
theorem tree_unique : ∀ {p : Part} (t t' : Tree p) {r r' : Bytes}, t.Numeric → t'.Numeric → Follow p r → Follow p r' →
    t.text ++ r = t'.text ++ r' → t = t' ∧ r = r'
  | _, .literal l, t', r, r', _, h', _, _, he => by
    have hs := shape_unique (v := .literal l) (fun _ hn => nomatch hn) h' he
    cases t' with
    | literal l' => cases l <;> cases l' <;> first | exact ⟨rfl, append_cancel_left he⟩ | cases (List.cons.inj he).1
    | _ => cases hs
  | _, .number token, t', r, r', h, h', hr, hr', he => by
    have hs := shape_unique h h' he
    cases t' with
    | number token' =>
      obtain ⟨h1, h2⟩ := Scan.span_unique (h token (mem_singleton_self _)).2 (h' token' (mem_singleton_self _)).2
        (not_isNumeric_of_follow hr) (not_isNumeric_of_follow hr') he
      exact ⟨by rw [h1], h2⟩
    | _ => cases hs
  | _, .string s, t', r, r', h, h', _, _, he => by
    have hs := shape_unique h h' he
    cases t' with
    | string s' =>
      obtain ⟨h1, h2⟩ := quoted_unique he
      exact ⟨by rw [h1], h2⟩
    | _ => cases hs
  | _, .emptyArray w, t', r, r', h, h', _, _, he => by
    have hs := shape_unique h h' he
    cases t' with
    | emptyArray w' =>
      simp only [Tree.text, cons_append, append_assoc, nil_append] at he
      obtain ⟨h1, h2⟩ := blank_unique (not_isBlank_cons (by decide) _) (not_isBlank_cons (by decide) _) (List.cons.inj he).2
      exact ⟨by rw [h1], (List.cons.inj h2).2⟩
    | array e' =>
      simp only [Tree.text, cons_append, append_assoc, nil_append] at he
      exact absurd (List.cons.inj he).2 (emptyArray_ne (e := e') h')
    | _ => cases hs
  | _, .array e, t', r, r', h, h', _, _, he => by
    have hs := shape_unique h h' he
    cases t' with
    | emptyArray w' =>
      simp only [Tree.text, cons_append, append_assoc, nil_append] at he
      exact absurd (List.cons.inj he).2.symm (emptyArray_ne (e := e) h)
    | array e' =>
      simp only [Tree.text, cons_append, append_assoc, nil_append] at he
      obtain ⟨h1, h2⟩ := tree_unique e e' h h' ⟨r, rfl⟩ ⟨r', rfl⟩ (List.cons.inj he).2
      exact ⟨by rw [h1], (List.cons.inj h2).2⟩
    | _ => cases hs
  | _, .emptyObject w, t', r, r', h, h', _, _, he => by
    have hs := shape_unique h h' he
    cases t' with
    | emptyObject w' =>
      simp only [Tree.text, cons_append, append_assoc, nil_append] at he
      obtain ⟨h1, h2⟩ := blank_unique (not_isBlank_cons (by decide) _) (not_isBlank_cons (by decide) _) (List.cons.inj he).2
      exact ⟨by rw [h1], (List.cons.inj h2).2⟩
    | object m' =>
      simp only [Tree.text, cons_append, append_assoc, nil_append] at he
      exact absurd (List.cons.inj he).2 emptyObject_ne
    | _ => cases hs
  | _, .object m, t', r, r', h, h', _, _, he => by
    have hs := shape_unique h h' he
    cases t' with
    | emptyObject w' =>
      simp only [Tree.text, cons_append, append_assoc, nil_append] at he
      exact absurd (List.cons.inj he).2.symm emptyObject_ne
    | object m' =>
      simp only [Tree.text, cons_append, append_assoc, nil_append] at he
      obtain ⟨h1, h2⟩ := tree_unique m m' h h' ⟨r, rfl⟩ ⟨r', rfl⟩ (List.cons.inj he).2
      exact ⟨by rw [h1], (List.cons.inj h2).2⟩
    | _ => cases hs
  | _, .element before v after, t', _, _, h, h', ⟨s, rfl⟩, ⟨s', rfl⟩, he => by
    cases t' with
    | element before' v' after' =>
      simp only [Tree.text, append_assoc] at he
      obtain ⟨rfl, rfl, rfl, -, rfl⟩ := padded_unique h h' (fun hr hr' => tree_unique v v' h h' hr hr')
        (by decide) (by decide) he
      exact ⟨rfl, rfl⟩
    | elements before' v' after' more' =>
      have hv' : v'.Numeric := fun n hn => h' n (mem_append_left _ hn)
      simp only [Tree.text, append_assoc, cons_append] at he
      obtain ⟨-, -, -, hc, -⟩ := padded_unique h hv' (fun hr hr' => tree_unique v v' h hv' hr hr') (by decide) (by decide) he
      exact absurd hc (by decide)
  | _, .elements before v after more, t', _, _, h, h', ⟨s, rfl⟩, ⟨s', rfl⟩, he => by
    have hv : v.Numeric := fun n hn => h n (mem_append_left _ hn)
    cases t' with
    | element before' v' after' =>
      simp only [Tree.text, append_assoc, cons_append] at he
      obtain ⟨-, -, -, hc, -⟩ := padded_unique hv h' (fun hr hr' => tree_unique v v' hv h' hr hr') (by decide) (by decide) he
      exact absurd hc (by decide)
    | elements before' v' after' more' =>
      have hv' : v'.Numeric := fun n hn => h' n (mem_append_left _ hn)
      simp only [Tree.text, append_assoc, cons_append] at he
      obtain ⟨rfl, rfl, rfl, -, hm⟩ := padded_unique hv hv' (fun hr hr' => tree_unique v v' hv hv' hr hr')
        (Or.inl rfl) (Or.inl rfl) he
      obtain ⟨rfl, hs⟩ := tree_unique more more' (fun n hn => h n (mem_append_right _ hn))
        (fun n hn => h' n (mem_append_right _ hn)) ⟨s, rfl⟩ ⟨s', rfl⟩ hm
      exact ⟨rfl, hs⟩
  | _, .member before key colon mid v after, t', _, _, h, h', ⟨s, rfl⟩, ⟨s', rfl⟩, he => by
    cases t' with
    | member before' key' colon' mid' v' after' =>
      simp only [Tree.text, append_assoc, cons_append] at he
      obtain ⟨rfl, rfl, rfl, hv⟩ := key_unique he
      obtain ⟨rfl, rfl, rfl, -, rfl⟩ := padded_unique h h' (fun hr hr' => tree_unique v v' h h' hr hr')
        (by decide) (by decide) hv
      exact ⟨rfl, rfl⟩
    | members before' key' colon' mid' v' after' more' =>
      have hv' : v'.Numeric := fun n hn => h' n (mem_append_left _ hn)
      simp only [Tree.text, append_assoc, cons_append] at he
      obtain ⟨-, -, -, he⟩ := key_unique he
      obtain ⟨-, -, -, hc, -⟩ := padded_unique h hv' (fun hr hr' => tree_unique v v' h hv' hr hr') (by decide) (by decide) he
      exact absurd hc (by decide)
  | _, .members before key colon mid v after more, t', _, _, h, h', ⟨s, rfl⟩, ⟨s', rfl⟩, he => by
    have hv : v.Numeric := fun n hn => h n (mem_append_left _ hn)
    cases t' with
    | member before' key' colon' mid' v' after' =>
      simp only [Tree.text, append_assoc, cons_append] at he
      obtain ⟨-, -, -, he⟩ := key_unique he
      obtain ⟨-, -, -, hc, -⟩ := padded_unique hv h' (fun hr hr' => tree_unique v v' hv h' hr hr') (by decide) (by decide) he
      exact absurd hc (by decide)
    | members before' key' colon' mid' v' after' more' =>
      have hv' : v'.Numeric := fun n hn => h' n (mem_append_left _ hn)
      simp only [Tree.text, append_assoc, cons_append] at he
      obtain ⟨rfl, rfl, rfl, hk⟩ := key_unique he
      obtain ⟨rfl, rfl, rfl, -, hm⟩ := padded_unique hv hv' (fun hr hr' => tree_unique v v' hv hv' hr hr')
        (Or.inl rfl) (Or.inl rfl) hk
      obtain ⟨rfl, hs⟩ := tree_unique more more' (fun n hn => h n (mem_append_right _ hn))
        (fun n hn => h' n (mem_append_right _ hn)) ⟨s, rfl⟩ ⟨s', rfl⟩ hm
      exact ⟨rfl, hs⟩

theorem follow_nil : Follow .value [] := fun _ hc => nomatch hc

/-- **A document has one tree.** -/
theorem document_unique {d d' : Document} (h : d.value.Numeric) (h' : d'.value.Numeric) (he : d.text = d'.text) : d = d' := by
  obtain ⟨before, v, after⟩ := d
  obtain ⟨before', v', after'⟩ := d'
  unfold Document.text at he
  obtain ⟨h1, he⟩ := blank_unique (not_isBlank_value h _) (not_isBlank_value h' _) he
  have hf : ∀ w : Blank, Follow .value w.1 := fun w => by
    have := follow_blank w follow_nil
    rwa [append_nil] at this
  obtain ⟨h2, he⟩ := tree_unique v v' h h' (hf after) (hf after') he
  exact (Document.mk.injEq ..).symm ▸ ⟨h1, h2, Subtype.ext he⟩

end Json
end Prose
