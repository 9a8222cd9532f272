import Mathlib.Algebra.Order.Field.Rat
import Prose.DrawModel
import Prose.PdfLiteral
import Prose.Utf8
/-!
# DrawLabel — `PDPDF.cpp`, the text

What the PDF writer puts between the parentheses for a label, and how wide it takes it to be.  A width in font units is a
`float` that counts whole numbers, a size in points a rational.
-/
namespace Prose
namespace Draw

open List

open Json (utf8)

/-! ## The writer -/

def kHelveticaWidths : List Nat :=
  [278, 278, 355, 556, 556, 889, 667, 191, 333, 333,
   389, 584, 278, 333, 278, 278, 556, 556, 556, 556,
   556, 556, 556, 556, 556, 556, 278, 278, 584, 584,
   584, 556, 1015, 667, 667, 722, 722, 667, 611, 778,
   722, 278, 500, 667, 556, 833, 722, 778, 667, 778,
   722, 667, 611, 722, 667, 944, 667, 667, 611, 278,
   278, 278, 469, 556, 333, 556, 556, 500, 556, 556,
   278, 556, 556, 222, 222, 500, 222, 833, 556, 556,
   556, 556, 333, 500, 278, 556, 500, 722, 500, 500,
   500, 334, 260, 334, 584]

def helveticaWidth (winAnsiByte : UInt8) : Nat :=
  if 32 ≤ winAnsiByte && winAnsiByte ≤ 126 then kHelveticaWidths.getD (winAnsiByte.toNat - 32) 0 else 556

/-- `PdfText`'s decoder: `cp` and `len` at `p`, with what is behind it.  The terminator is behind the last. -/
def codePoint (p : UInt8) (behind : List UInt8) : Nat × Nat :=
  let p1 := behind.getD 0 0
  let p2 := behind.getD 1 0
  if p < 0x80 then (p.toNat, 1)
  else if p &&& 0xE0 = 0xC0 ∧ p1 ≠ 0 then (((p &&& 0x1F).toNat <<< 6) ||| (p1 &&& 0x3F).toNat, 2)
  else if p &&& 0xF0 = 0xE0 ∧ p1 ≠ 0 ∧ p2 ≠ 0 then
    (((p &&& 0x0F).toNat <<< 12) ||| ((p1 &&& 0x3F).toNat <<< 6) ||| (p2 &&& 0x3F).toNat, 3)
  else (0xFFFD, 1)

/-- `PdfText`'s map. -/
def winAnsiByte (cp : Nat) : UInt8 :=
  if cp < 0x80 ∨ 0xA0 ≤ cp ∧ cp ≤ 0xFF then UInt8.ofNat cp
  else
    match cp with
    | 0x20AC => 0x80
    | 0x2022 => 0x95
    | 0x2013 => 0x96
    | 0x2014 => 0x97
    | 0x2018 => 0x91
    | 0x2019 => 0x92
    | 0x201C => 0x93
    | 0x201D => 0x94
    | _      => 63

/-- `%03o`. -/
def octal3 (b : UInt8) : List UInt8 := [48 + b / 64, 48 + b / 8 % 8, 48 + b % 8]

/-- `PdfText`'s escapes. -/
def escaped (b : UInt8) : List UInt8 :=
  if b = 40 ∨ b = 41 ∨ b = 92 then [92, b] else if b < 32 ∨ 126 < b then 92 :: octal3 b else [b]

/-- `PdfText`'s loop: `p += len - 1` passes over the rest of a character. -/
def pdfTextFrom : Nat → List UInt8 → List UInt8
  | _, []               => []
  | passed + 1, _ :: t  => pdfTextFrom passed t
  | 0, p :: t           => escaped (winAnsiByte (codePoint p t).1) ++ pdfTextFrom ((codePoint p t).2 - 1) t

def pdfText (label : List Byte) : List UInt8 := pdfTextFrom 0 (label.map Subtype.val)

def helveticaStringWidth (label : List Byte) (size : ℚ) : ℚ :=
  ((pdfText label).map helveticaWidth).sum / 1000 * size

/-- `EmitLabel`: where the line begins, and the operand of `Tj`. -/
def emitLabel (label : List Byte) (textSize xModelBaseline : ℚ) (centre : Bool) : ℚ × List UInt8 :=
  (if centre then xModelBaseline - helveticaStringWidth label textSize / 2 else xModelBaseline, 40 :: (pdfText label ++ [41]))

/-! ## WinAnsi -/

def winAnsiMarks : List (Nat × UInt8) :=
  [(0x20AC, 0x80), (0x201A, 0x82), (0x0192, 0x83), (0x201E, 0x84), (0x2026, 0x85), (0x2020, 0x86), (0x2021, 0x87),
   (0x02C6, 0x88), (0x2030, 0x89), (0x0160, 0x8A), (0x2039, 0x8B), (0x0152, 0x8C), (0x017D, 0x8E), (0x2018, 0x91),
   (0x2019, 0x92), (0x201C, 0x93), (0x201D, 0x94), (0x2022, 0x95), (0x2013, 0x96), (0x2014, 0x97), (0x02DC, 0x98),
   (0x2122, 0x99), (0x0161, 0x9A), (0x203A, 0x9B), (0x0153, 0x9C), (0x017E, 0x9E), (0x0178, 0x9F)]

def winAnsi (c : Char) : Option UInt8 :=
  if c.toNat < 0x80 ∨ 0xA0 ≤ c.toNat ∧ c.toNat ≤ 0xFF then some (UInt8.ofNat c.toNat) else winAnsiMarks.lookup c.toNat

/-- Each character as its WinAnsi code, or as one question mark or more. -/
def Shows : List Char → List UInt8 → Prop
  | [], bytes => bytes = []
  | c :: cs, bytes => ∃ piece rest, bytes = piece ++ rest ∧ Shows cs rest ∧
    match winAnsi c with
    | some w => piece = [w]
    | none   => piece ≠ [] ∧ ∀ b ∈ piece, b = 63

def Spells (label : List Byte) (cs : List Char) : Prop := label.map Subtype.val = cs.flatMap String.utf8EncodeChar

/-- The body is a literal string that says the label's WinAnsi bytes, and the width is the width of these bytes. -/
def LabelFits (label : List Byte) (cs : List Char) : Prop :=
  ∃ bytes, (∀ rest, PdfLiteral.read {} (pdfText label ++ 41 :: rest) = some (bytes, rest)) ∧ Shows cs bytes ∧
    ∀ size, helveticaStringWidth label size = (bytes.map helveticaWidth).sum / 1000 * size

def Unescaped (b : UInt8) : Prop := 32 ≤ b ∧ b ≤ 126 ∧ b ≠ 40 ∧ b ≠ 41 ∧ b ≠ 92

instance (b : UInt8) : Decidable (Unescaped b) := inferInstanceAs (Decidable (_ ∧ _))

/-- A character of printable ASCII that is not escaped, or one that WinAnsi lacks. -/
def PlainChar (c : Char) : Prop := ∀ w ∈ winAnsi c, Unescaped w

instance (c : Char) : Decidable (PlainChar c) :=
  decidable_of_iff ((winAnsi c).all (fun w => decide (Unescaped w)) = true) (by simp [PlainChar, Option.all_eq_true])

/-! ## The escapes -/

open PdfLiteral (Reads)

theorem octal3_digits : ∀ b : UInt8, PdfLiteral.isOctal (48 + b / 64) ∧ PdfLiteral.isOctal (48 + b / 8 % 8) ∧
    PdfLiteral.isOctal (48 + b % 8) ∧
    b.toNat = (((48 + b / 64).toNat - 48) * 8 + ((48 + b / 8 % 8).toNat - 48)) * 8 + ((48 + b % 8).toNat - 48) := by
  have hall : ∀ v : Fin 256, let b := UInt8.ofFin v
      PdfLiteral.isOctal (48 + b / 64) ∧ PdfLiteral.isOctal (48 + b / 8 % 8) ∧ PdfLiteral.isOctal (48 + b % 8) ∧
      b.toNat = (((48 + b / 64).toNat - 48) * 8 + ((48 + b / 8 % 8).toNat - 48)) * 8 + ((48 + b % 8).toNat - 48) := by
    decide +kernel
  exact fun b => hall b.toFin

/-- **Whatever the byte, its escape says the byte.** -/
theorem escaped_reads (b : UInt8) : Reads {} (escaped b) [b] {} := by
  unfold escaped
  split_ifs with h1 h2
  · exact PdfLiteral.reads_escape h1 0
  · obtain ⟨hx, hy, hz, hb⟩ := octal3_digits b
    exact PdfLiteral.reads_octal hx hy hz hb 0
  · refine PdfLiteral.reads_plain ⟨fun h => h1 (.inr (.inr h)), fun h => h1 (.inl h), fun h => h1 (.inr (.inl h)), ?_⟩ 0
    rintro rfl
    exact h2 (.inl (by decide))

theorem width_le_escaped : ∀ b : UInt8, helveticaWidth b ≤ ((escaped b).map helveticaWidth).sum ∧
    (helveticaWidth b = ((escaped b).map helveticaWidth).sum ↔ Unescaped b) := by
  have hall : ∀ v : Fin 256, let b := UInt8.ofFin v
      helveticaWidth b ≤ ((escaped b).map helveticaWidth).sum ∧
      (helveticaWidth b = ((escaped b).map helveticaWidth).sum ↔ Unescaped b) := by
    decide +kernel
  exact fun b => hall b.toFin

theorem width_eq_escaped : ∀ bytes : List UInt8,
    (bytes.map helveticaWidth).sum ≤ ((bytes.flatMap escaped).map helveticaWidth).sum ∧
    ((bytes.map helveticaWidth).sum = ((bytes.flatMap escaped).map helveticaWidth).sum ↔ ∀ b ∈ bytes, Unescaped b)
  | [] => ⟨Nat.le_refl _, fun _ b hb => (nomatch hb), fun _ => rfl⟩
  | b :: bytes => by
    obtain ⟨hle, hiff⟩ := width_eq_escaped bytes
    obtain ⟨hle', hiff'⟩ := width_le_escaped b
    rw [flatMap_cons, map_append, List.sum_append, map_cons, sum_cons, forall_mem_cons, ← hiff, ← hiff']
    omega

/-! ## A character -/

/-- What `PdfText` makes of a character, before the escapes. -/
def piece (n : Nat) : List UInt8 := if n ≤ 0xFFFF then [winAnsiByte n] else [63, 63, 63, 63]

theorem lead2 : ∀ k < 32, let x := UInt8.ofNat (k + 0xC0); ¬ x < 0x80 ∧ x &&& 0xE0 = 0xC0 ∧ (x &&& 0x1F).toNat = k := by
  decide

theorem lead3 : ∀ k < 16, let x := UInt8.ofNat (k + 0xE0)
    ¬ x < 0x80 ∧ x &&& 0xE0 ≠ 0xC0 ∧ x &&& 0xF0 = 0xE0 ∧ (x &&& 0x0F).toNat = k := by
  decide

theorem lead4 : ∀ k < 8, let x := UInt8.ofNat (k + 0xF0); ¬ x < 0x80 ∧ x &&& 0xE0 ≠ 0xC0 ∧ x &&& 0xF0 ≠ 0xE0 := by
  decide

theorem continuation : ∀ k < 64, let x := UInt8.ofNat (k + 0x80)
    ¬ x < 0x80 ∧ x &&& 0xE0 ≠ 0xC0 ∧ x &&& 0xF0 ≠ 0xE0 ∧ x ≠ 0 ∧ (x &&& 0x3F).toNat = k := by
  decide

theorem pdfTextFrom_unknown {p : UInt8} (h : ¬ p < 0x80 ∧ p &&& 0xE0 ≠ 0xC0 ∧ p &&& 0xF0 ≠ 0xE0) (t : List UInt8) :
    pdfTextFrom 0 (p :: t) = escaped 63 ++ pdfTextFrom 0 t := by
  have hcp : codePoint p t = (0xFFFD, 1) := by
    simp only [codePoint, if_neg h.1, h.2.1, h.2.2, false_and, if_false]
  rw [pdfTextFrom, hcp]
  rfl

/-- **The decoder reads a character of up to three bytes, and of four it knows none.** -/
theorem pdfTextFrom_utf8 {n : Nat} (hn : n < 0x110000) (t : List UInt8) :
    pdfTextFrom 0 (utf8 n ++ t) = (piece n).flatMap escaped ++ pdfTextFrom 0 t := by
  unfold utf8 piece
  split_ifs with h1 h2 h3 h4 <;> try omega
  · have hlt : UInt8.ofNat n < 0x80 := by
      rw [UInt8.lt_iff_toNat_lt, UInt8.toNat_ofNat', Nat.mod_eq_of_lt (by omega)]
      exact Nat.lt_succ_of_le h1
    have hcp : codePoint (UInt8.ofNat n) t = (n, 1) := by
      rw [codePoint, if_pos hlt, UInt8.toNat_ofNat', Nat.mod_eq_of_lt (by omega)]
    rw [singleton_append, pdfTextFrom, hcp, flatMap_singleton]
    rfl
  · obtain ⟨hx, hmask, hk⟩ := lead2 (n / 64 % 0x20) (by omega)
    obtain ⟨-, -, -, hy, hl⟩ := continuation (n % 0x40) (by omega)
    have hcp : codePoint (UInt8.ofNat (n / 64 % 0x20 + 0xC0)) (UInt8.ofNat (n % 0x40 + 0x80) :: t) = (n, 2) := by
      simp only [codePoint, getD_cons_zero]
      rw [if_neg hx, if_pos ⟨hmask, hy⟩, hk, hl, ← Nat.shiftLeft_add_eq_or_of_lt (by omega), Nat.shiftLeft_eq]
      congr 1
      omega
    rw [cons_append, singleton_append, pdfTextFrom, hcp, flatMap_singleton]
    rfl
  · obtain ⟨hx, hmask, hmask', hk⟩ := lead3 (n / 4096 % 0x10) (by omega)
    obtain ⟨-, -, -, hy, hl⟩ := continuation (n / 64 % 0x40) (by omega)
    obtain ⟨-, -, -, hz, hm⟩ := continuation (n % 0x40) (by omega)
    have hcp : codePoint (UInt8.ofNat (n / 4096 % 0x10 + 0xE0))
        (UInt8.ofNat (n / 64 % 0x40 + 0x80) :: UInt8.ofNat (n % 0x40 + 0x80) :: t) = (n, 3) := by
      simp only [codePoint, getD_cons_zero, getD_cons_succ]
      rw [if_neg hx, if_neg (fun h => hmask h.1), if_pos ⟨hmask', hy, hz⟩, hk, hl, hm, Nat.or_assoc,
        ← Nat.shiftLeft_add_eq_or_of_lt (a := n / 64 % 0x40) (by omega), ← Nat.shiftLeft_add_eq_or_of_lt, Nat.shiftLeft_eq,
        Nat.shiftLeft_eq]
      · congr 1
        omega
      · rw [Nat.shiftLeft_eq]
        omega
    rw [cons_append, cons_append, singleton_append, pdfTextFrom, hcp, flatMap_singleton]
    rfl
  · obtain ⟨hx, hx', hx''⟩ := lead4 (n / 262144 % 0x08) (by omega)
    have hc (k : Nat) : ¬ UInt8.ofNat (k % 0x40 + 0x80) < 0x80 ∧ UInt8.ofNat (k % 0x40 + 0x80) &&& 0xE0 ≠ 0xC0 ∧
        UInt8.ofNat (k % 0x40 + 0x80) &&& 0xF0 ≠ 0xE0 := by
      obtain ⟨h, h', h'', -⟩ := continuation (k % 0x40) (by omega)
      exact ⟨h, h', h''⟩
    rw [cons_append, cons_append, cons_append, singleton_append, pdfTextFrom_unknown ⟨hx, hx', hx''⟩,
      pdfTextFrom_unknown (hc _), pdfTextFrom_unknown (hc _), pdfTextFrom_unknown (hc _)]
    rfl

theorem toNat_lt (c : Char) : c.toNat < 0x110000 := by
  have hvalid := c.valid
  simp only [UInt32.isValidChar, Nat.isValidChar] at hvalid
  change c.toNat < _ ∨ _ < c.toNat ∧ c.toNat < _ at hvalid
  omega

theorem winAnsiByte_latin {cp : Nat} (h : cp < 0x80 ∨ 0xA0 ≤ cp ∧ cp ≤ 0xFF) : winAnsiByte cp = UInt8.ofNat cp := by
  simp only [winAnsiByte, if_pos h]

theorem piece_lacking {c : Char} (h : winAnsi c = none) : piece c.toNat ≠ [] ∧ ∀ b ∈ piece c.toNat, b = 63 := by
  unfold winAnsi at h
  split_ifs at h with hlatin
  unfold piece
  split_ifs with hn
  · have hbyte : winAnsiByte c.toNat = 63 := by
      unfold winAnsiByte
      rw [if_neg hlatin]
      -- the eight codes of the switch are among WinAnsi's
      split <;> first | rfl | (rename_i hc; rw [hc] at h; exact absurd h (by decide))
    exact ⟨cons_ne_nil _ _, fun b hb => by rw [mem_singleton.1 hb, hbyte]⟩
  · exact ⟨cons_ne_nil _ _, fun b hb => by simpa using hb⟩

theorem piece_unescaped {c : Char} {w : UInt8} (h : winAnsi c = some w) (hw : Unescaped w) : piece c.toNat = [w] := by
  unfold winAnsi at h
  split_ifs at h with hlatin
  · rw [← Option.some.inj h, piece, if_pos (by omega), winAnsiByte_latin hlatin]
  · have hmarks : ∀ m ∈ winAnsiMarks, ¬ Unescaped m.2 := by decide
    obtain ⟨l, l', hsplit, -⟩ := lookup_eq_some_iff.1 h
    exact absurd hw (hmarks (c.toNat, w) (by rw [hsplit]; exact mem_append_right _ mem_cons_self))

/-! ## A label -/

theorem pdfTextFrom_flatMap (t : List UInt8) : ∀ cs : List Char,
    pdfTextFrom 0 (cs.flatMap String.utf8EncodeChar ++ t) =
      (cs.flatMap (fun c => piece c.toNat)).flatMap escaped ++ pdfTextFrom 0 t
  | [] => rfl
  | c :: cs => by
    rw [flatMap_cons, append_assoc, ← Json.utf8_char, pdfTextFrom_utf8 (toNat_lt c), pdfTextFrom_flatMap t cs,
      flatMap_cons, flatMap_append, append_assoc]

def shown (cs : List Char) : List UInt8 := cs.flatMap (fun c => piece c.toNat)

theorem pdfText_eq {label : List Byte} {cs : List Char} (h : Spells label cs) : pdfText label = (shown cs).flatMap escaped := by
  have hall := pdfTextFrom_flatMap [] cs
  rwa [append_nil, pdfTextFrom, append_nil, ← h] at hall

/-- **The body is a literal string, whatever the label.** -/
theorem pdfText_reads {label : List Byte} {cs : List Char} (h : Spells label cs) (rest : List UInt8) :
    PdfLiteral.read {} (pdfText label ++ 41 :: rest) = some (shown cs, rest) := by
  have hreads := Reads.flatMap escaped_reads (shown cs)
  rw [← pdfText_eq h, flatMap_singleton'] at hreads
  exact hreads.close rest

theorem Shows.mem : ∀ {cs : List Char} {bytes : List UInt8}, Shows cs bytes → ∀ c ∈ cs, ∀ w ∈ winAnsi c, w ∈ bytes
  | c :: cs, _, ⟨p, rest, hbytes, hrest, hp⟩, d, hd, w, hw => by
    subst hbytes
    rcases mem_cons.1 hd with rfl | hd
    · rw [Option.mem_def.1 hw] at hp
      rw [hp]
      exact mem_cons_self
    · exact mem_append_right _ (hrest.mem d hd w hw)

theorem shows_plain : ∀ {cs : List Char}, (∀ c ∈ cs, PlainChar c) → Shows cs (shown cs) ∧ ∀ b ∈ shown cs, Unescaped b
  | [], _ => ⟨rfl, fun b hb => (nomatch hb)⟩
  | c :: cs, h => by
    obtain ⟨hc, hcs⟩ := forall_mem_cons.1 h
    obtain ⟨hshows, hbytes⟩ := shows_plain hcs
    have hpiece : (match winAnsi c with
        | some w => piece c.toNat = [w]
        | none   => piece c.toNat ≠ [] ∧ ∀ b ∈ piece c.toNat, b = 63) ∧ ∀ b ∈ piece c.toNat, Unescaped b := by
      cases hw : winAnsi c with
      | some w =>
        have hpiece := piece_unescaped hw (hc w hw)
        refine ⟨hpiece, fun b hb => ?_⟩
        rw [hpiece] at hb
        rw [mem_singleton.1 hb]
        exact hc w hw
      | none =>
        have hpiece := piece_lacking hw
        refine ⟨hpiece, fun b hb => ?_⟩
        rw [hpiece.2 b hb]
        decide
    refine ⟨⟨_, _, rfl, hshows, hpiece.1⟩, fun b hb => ?_⟩
    rcases mem_append.1 hb with hb | hb
    · exact hpiece.2 b hb
    · exact hbytes b hb

theorem LabelFits.width {label : List Byte} {cs : List Char} (h : LabelFits label cs) (hs : Spells label cs) :
    Shows cs (shown cs) ∧ ((shown cs).map helveticaWidth).sum = (((shown cs).flatMap escaped).map helveticaWidth).sum := by
  obtain ⟨bytes, hread, hshows, hwidth⟩ := h
  have hbytes : bytes = shown cs := by
    have heq := (hread []).symm.trans (pdfText_reads hs [])
    exact (Prod.mk.inj (Option.some.inj heq)).1
  subst hbytes
  refine ⟨hshows, ?_⟩
  have h1000 := hwidth 1000
  rw [helveticaStringWidth, pdfText_eq hs, div_mul_cancel₀ _ (by decide), div_mul_cancel₀ _ (by decide)] at h1000
  exact_mod_cast h1000.symm

theorem LabelFits.plain {label : List Byte} {cs : List Char} (h : LabelFits label cs) (hs : Spells label cs) :
    ∀ c ∈ cs, PlainChar c := by
  obtain ⟨hshows, hwidth⟩ := h.width hs
  intro c hc w hw
  exact (width_eq_escaped _).2.1 hwidth w (hshows.mem c hc w hw)

theorem width_plain {label : List Byte} {cs : List Char} (hs : Spells label cs) (h : ∀ c ∈ cs, PlainChar c) (size : ℚ) :
    helveticaStringWidth label size = ((shown cs).map helveticaWidth).sum / 1000 * size := by
  rw [helveticaStringWidth, pdfText_eq hs, ← (width_eq_escaped _).2.2 (shows_plain h).2]

theorem emitLabel_centre {label : List Byte} {cs : List Char} (hs : Spells label cs) (h : ∀ c ∈ cs, PlainChar c) (size x : ℚ) :
    (emitLabel label size x true).1 + ((shown cs).map helveticaWidth).sum / 1000 * size / 2 = x := by
  rw [← width_plain hs h]
  exact sub_add_cancel _ _

/-- **A label is written and measured right when nothing in it is escaped.** -/
theorem labelFits_iff {label : List Byte} {cs : List Char} (hs : Spells label cs) :
    LabelFits label cs ↔ ∀ c ∈ cs, PlainChar c :=
  ⟨fun h => h.plain hs, fun h => ⟨shown cs, pdfText_reads hs, (shows_plain h).1, width_plain hs h⟩⟩

theorem labelFits_letterA : LabelFits [⟨65, by decide⟩] ['A'] := (labelFits_iff (by rfl)).2 (forall_mem_singleton.2 (by decide))

/-- A parenthesis is measured with its backslash. -/
theorem labelFits_not_parenthesis : ∃ label cs, Spells label cs ∧ ¬ LabelFits label cs := by
  refine ⟨[⟨40, by decide⟩], ['('], rfl, fun h => ?_⟩
  exact absurd (h.plain rfl '(' mem_cons_self) (by decide)

end Draw
end Prose
