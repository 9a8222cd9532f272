import Prose.Utf8
import Prose.WriterReplace
import Prose.WriterRtfTokens
/-!
# WriterUnicode — what a `\u` word contributes

The reader only ever writes behind the text.  A turn of its loop in front of a `\u` word writes what `EmitUnicode` makes of the number:
the character's UTF-8, but nothing for NUL, and for each half of a pair the three bytes a character of that number would have.
-/
namespace Prose
namespace Scan

variable {σ α : Type*} (going : σ → Bool) (step : σ → List α → σ × List α)

def places : Nat → σ → List α → List (σ × List α)
  | 0, _, _        => []
  | fuel + 1, r, s => if s.isEmpty || !going r then [] else (r, s) :: places fuel (step r s).1 (step r s).2

end Scan

namespace Writer

open Json (utf8 isHigh isLow Utf8)

def raw (t : List Byte) : List UInt8 := t.map (·.val)

/-- The number of the `\u` word that the reader stands in front of, if there is one, and it is of the text. -/
def unicodeWord (r : RtfReader) : List Byte → Option Int
  | []     => none
  | c :: s =>
    if c = ascii '\\' ∧ r.inTable = false ∧ s.takeWhile isAlpha = chars "u" then (readParam (s.dropWhile isAlpha)).1 else none

/-- It stands in front of `\'`. -/
def HexEscape (s : List Byte) : Prop := s.take 2 = [ascii '\\', ascii '\'']

instance (s : List Byte) : Decidable (HexEscape s) := inferInstanceAs (Decidable (_ = _))

namespace PWDocument
variable (d : PWDocument)

def reader : RtfReader := { fDoc := d, fDefault := d.fDefault, fDepth := 1 }

def rtfPlaces : List Byte → List (RtfReader × List Byte)
  | []     => []
  | c :: s => if c = ascii '\x7b' then Scan.places RtfReader.inGroup RtfReader.step s.length d.reader s else []

end PWDocument

def added (c : RtfReader × List Byte) : List Byte :=
  (plainText (c.1.step c.2).1.fDoc.fParas).drop (plainText c.1.fDoc.fParas).length

/-- The `\u` words that are read and whatever else is written, in order. -/
def contributions (d : PWDocument) (s : List Byte) : List (Option Int × List UInt8) :=
  ((d.rtfPlaces s).map fun c => (unicodeWord c.1 c.2, raw (added c))).filter fun x => x.1.isSome || x.2 ≠ []

/-! ## What is meant -/

def Is16 (n : Int) : Prop := -32768 ≤ n ∧ n < 32768

instance (n : Int) : Decidable (Is16 n) := inferInstanceAs (Decidable (_ ∧ _))

def unitOf (n : Int) : Nat := (n % 65536).toNat

def isSurrogate (u : Nat) : Bool := isHigh u || isLow u

/-- A word by itself contributes its character; half a pair is none, and may contribute any that are. -/
def Alone (n : Int) (b : List UInt8) : Prop := Is16 n → if isSurrogate (unitOf n) then Utf8 b else b = utf8 (unitOf n)

/-- **Each word contributes the character it denotes**, and two halves of a pair theirs together. -/
def Faithful : List (Option Int × List UInt8) → Prop
  | []                                     => True
  | (none, _) :: rest                      => Faithful rest
  | [(some n, b)]                          => Alone n b
  | (some n, b) :: (none, b') :: rest      => Alone n b ∧ Faithful ((none, b') :: rest)
  | (some n, b) :: (some m, b') :: rest    =>
    if Is16 n ∧ Is16 m ∧ isHigh (unitOf n) = true ∧ isLow (unitOf m) = true then
      b ++ b' = utf8 (0x10000 + (unitOf n - 0xD800) * 0x400 + (unitOf m - 0xDC00)) ∧ Faithful rest
    else Alone n b ∧ Faithful ((some m, b') :: rest)

/-- **What is expected of `PW_LoadRTF`**: and so a file of ASCII, whose only escapes are `\u` words, leaves the paragraphs UTF-8. -/
structure UnicodeKept (d : PWDocument) (s : List Byte) : Prop where
  words : Faithful (contributions d s)
  valid : ∀ d', d.loadRTF s = some d' → (∀ c ∈ s, c.val.toNat < 0x80) →
    (∀ c ∈ d.rtfPlaces s, ¬ HexEscape c.2 ∧ ∀ n, unicodeWord c.1 c.2 = some n → Is16 n) →
    (∀ p ∈ d.fParas, Utf8 (raw p.text)) → ∀ p ∈ d'.fParas, Utf8 (raw p.text)

def PlainWords (d : PWDocument) (s : List Byte) : Prop :=
  ∀ c ∈ d.rtfPlaces s, ∀ n, unicodeWord c.1 c.2 = some n → Is16 n → unitOf n ≠ 0 ∧ isSurrogate (unitOf n) = false

/-! ## What a turn writes -/

theorem map_modify_same {α β : Type} {f : α → α} {g : α → β} (h : ∀ x, g (f x) = g x) : ∀ (l : List α) (i : Nat),
    (l.modify i f).map g = l.map g
  | [], 0 | [], _ + 1 => rfl
  | x :: l, 0 => by
    rw [List.modify_zero_cons, List.map_cons, h]
    rfl
  | x :: l, i + 1 => by
    rw [List.modify_succ_cons, List.map_cons, map_modify_same h l i]
    rfl

theorem setParaFormat_text (d : PWDocument) (para : Nat) (fmt : PWParaFormat) :
    plainText (d.setParaFormat para fmt).fParas = plainText d.fParas ∧ (d.setParaFormat para fmt).fParas.length = d.fParas.length := by
  unfold PWDocument.setParaFormat
  split
  · exact ⟨rfl, rfl⟩
  rw [pushUndo_fParas]
  have htexts : (setFormatParas d.fParas para fmt).map (·.text) = d.fParas.map (·.text) :=
    map_modify_same (f := fun p : Para => { p with format := fmt, revision := p.revision + 1 }) (fun _ => rfl) _ _
  exact ⟨congrArg [newline].intercalate htexts, List.length_modify ..⟩

structure Writes (r r' : RtfReader) (x : List Byte) : Prop where
  ne : r'.fDoc.fParas ≠ []
  text : plainText r'.fDoc.fParas = plainText r.fDoc.fParas ++ x

section
variable {r r' : RtfReader} (hne : r.fDoc.fParas ≠ [])
include hne

theorem Writes.same (h : r'.fDoc = r.fDoc) : Writes r r' [] := ⟨h ▸ hne, by rw [h, List.append_nil]⟩

theorem Writes.insert (t : List Byte) (fmt : Option PWCharFormat) (h : r'.fDoc = r.fDoc.insert (docLength r.fDoc.fParas) t fmt) :
    Writes r r' t := by
  constructor
  · rw [h]
    exact insert_ne_nil hne _ _ _
  · rw [h, plainText_insert hne (Nat.le_refl _), ← length_plainText hne]
    unfold Splice.insertAt
    rw [List.take_length, List.drop_length, List.append_nil]

theorem Writes.emit (bytes : List UInt8) : Writes r (r.emit bytes) (cString bytes) := .insert hne _ _ rfl

omit hne in
theorem Writes.applyParaFormat {x : List Byte} (h : Writes r r' x) (para : Int) : Writes r (r'.applyParaFormat para) x := by
  unfold RtfReader.applyParaFormat
  split_ifs
  · exact h
  · exact h
  · obtain ⟨htext, hlength⟩ := setParaFormat_text r'.fDoc para.toNat (r'.fState.paraFormat (paraAt r'.fDoc.fParas para.toNat).format)
    exact ⟨fun he => h.ne (List.length_eq_zero_iff.1 (hlength.symm.trans (by rw [he]; rfl))), htext.trans h.text⟩

theorem Writes.endParagraph : Writes r r.endParagraph [newline] := by
  have h : Writes r { r with fDoc := r.fDoc.insert (docLength r.fDoc.fParas) [newline] none } [newline] := .insert hne _ none rfl
  exact h.applyParaFormat _

end

/-- The bytes of `EmitUnicode`. -/
def emitted (n : Int) : List UInt8 :=
  let cp := if n < 0 then n + 65536 else n
  let u := cp.toNat
  if cp < 0x80 then [toChar cp]
  else if cp < 0x800 then [UInt8.ofNat (0xC0 ||| u >>> 6), UInt8.ofNat (0x80 ||| u &&& 0x3F)]
  else [UInt8.ofNat (0xE0 ||| u >>> 12), UInt8.ofNat (0x80 ||| (u >>> 6) &&& 0x3F), UInt8.ofNat (0x80 ||| u &&& 0x3F)]

theorem tableControl_fDoc (r : RtfReader) (w : List Byte) (param : Option Int) : (r.tableControl w param).fDoc = r.fDoc := by
  unfold RtfReader.tableControl
  split
  · rfl
  split_ifs
  · show r.storeName.fDoc = r.fDoc
    unfold RtfReader.storeName
    split <;> rfl
  all_goals rfl

/-- What a turn that is not in front of a `\u` word may write. -/
def Other (s x : List Byte) : Prop :=
  x = [] ∨ x = [newline] ∨ x = cString [9] ∨ (∃ c ∈ s, x = cString [c.val]) ∨ (HexEscape s ∧ ∃ b, x = cString [b])

section
variable {r : RtfReader} (hne : r.fDoc.fParas ≠ [])
include hne

theorem controlWord_writes (starred : Bool) (w : List Byte) (param : Option Int) (s : List Byte) :
    ∃ x, Writes r (r.controlWord starred w param s).1 x ∧
      (starred = false → r.inTable = false → w = chars "u" → ∀ n ∈ param, x = cString (emitted n)) ∧
      ((starred = true ∨ r.inTable = true ∨ w ≠ chars "u" ∨ param = none) → x = [] ∨ x = [newline] ∨ x = cString [9]) := by
  have hsame {r' : RtfReader} (h : r'.fDoc = r.fDoc) : Writes r r' [] := .same hne h
  unfold RtfReader.controlWord
  split_ifs with hstar hfont hcolor htable hdest hpar htab
  · exact ⟨[], hsame rfl, fun hno => absurd (hstar.symm.trans hno) (by decide), fun _ => .inl rfl⟩
  · exact ⟨[], hsame rfl, fun _ _ hu => absurd (hfont.symm.trans hu) (by decide), fun _ => .inl rfl⟩
  · exact ⟨[], hsame rfl, fun _ _ hu => absurd (hcolor.symm.trans hu) (by decide), fun _ => .inl rfl⟩
  · exact ⟨[], hsame (tableControl_fDoc r w param), fun _ hno => absurd (htable.symm.trans hno) (by decide), fun _ => .inl rfl⟩
  · exact ⟨[], hsame rfl, fun _ _ hu => absurd hdest (by rw [hu]; decide), fun _ => .inl rfl⟩
  · exact ⟨[newline], .endParagraph hne, fun _ _ hu => absurd hpar (by rw [hu]; decide), fun _ => .inr (.inl rfl)⟩
  · exact ⟨cString [9], .emit hne _, fun _ _ hu => absurd (htab.symm.trans hu) (by decide), fun _ => .inr (.inr rfl)⟩
  · next hu =>
    cases param with
    | none => exact ⟨[], hsame rfl, fun _ _ _ n hn => absurd hn (by simp), fun _ => .inl rfl⟩
    | some n =>
      refine ⟨cString (emitted n), .emit hne _, fun _ _ _ m hm => by rw [Option.some.inj hm], fun h => ?_⟩
      exact absurd h (by simp [hstar, htable, hu])
  · next hu => exact ⟨[], hsame rfl, fun _ _ h => absurd h hu, fun _ => .inl rfl⟩

omit hne in
theorem Other.of_control {s x : List Byte} (h : x = [] ∨ x = [newline] ∨ x = cString [9]) : Other s x :=
  h.imp_right (Or.imp_right .inl)

theorem control_writes (s : List Byte) : ∃ x, Writes r (r.control s).1 x ∧
    (∀ n ∈ unicodeWord r (ascii '\\' :: s), x = cString (emitted n)) ∧
    (unicodeWord r (ascii '\\' :: s) = none → Other (ascii '\\' :: s) x) := by
  have hsame {r' : RtfReader} (h : r'.fDoc = r.fDoc) : Writes r r' [] := .same hne h
  have hnot {c : Byte} {s : List Byte} (hc : isAlpha c = false) : unicodeWord r (ascii '\\' :: c :: s) = none :=
    if_neg fun h => absurd h.2.2 (by rw [List.takeWhile_cons_of_neg (by rw [hc]; exact Bool.false_ne_true)]; decide)
  unfold RtfReader.control
  split
  · exact ⟨[], hsame rfl, by rw [show unicodeWord r [ascii '\\'] = none from if_neg fun h => absurd h.2.2 (by decide)]; nofun,
      fun _ => .inl rfl⟩
  next c s =>
  split_ifs with hsymbol hhex hstar hend
  · have halpha : isAlpha c = false := by rcases hsymbol with rfl | rfl | rfl <;> decide
    exact ⟨cString [c.val], .emit hne _, by rw [hnot halpha]; nofun,
      fun _ => .inr (.inr (.inr (.inl ⟨c, List.mem_cons_of_mem _ List.mem_cons_self, rfl⟩)))⟩
  · refine ⟨cString [(hex2 s).1], .emit hne _, by rw [hnot (by rw [hhex]; decide)]; nofun, fun _ => ?_⟩
    exact .inr (.inr (.inr (.inr ⟨by rw [hhex]; rfl, _, rfl⟩)))
  · exact ⟨[], hsame rfl, by rw [hnot (by rw [hstar]; decide)]; nofun, fun _ => .inl rfl⟩
  · obtain ⟨x, hw, -, hother⟩ := controlWord_writes hne true (s.takeWhile isAlpha) (readParam (s.dropWhile isAlpha)).1
      (skipSpace (readParam (s.dropWhile isAlpha)).2)
    exact ⟨x, hw, by rw [hnot (by rw [hstar]; decide)]; nofun, fun _ => .of_control (hother (.inl rfl))⟩
  · obtain ⟨x, hw, hword, hother⟩ := controlWord_writes hne false ((c :: s).takeWhile isAlpha)
      (readParam ((c :: s).dropWhile isAlpha)).1 (skipSpace (readParam ((c :: s).dropWhile isAlpha)).2)
    refine ⟨x, hw, fun n hn => ?_, fun hnone => .of_control (hother ?_)⟩
    · obtain ⟨⟨-, htable, hu⟩, hn⟩ := Option.ite_none_right_eq_some.1 hn
      exact hword rfl htable hu n hn
    · by_cases hu : r.inTable = false ∧ (c :: s).takeWhile isAlpha = chars "u"
      · exact .inr (.inr (.inr ((if_pos ⟨rfl, hu⟩).symm.trans hnone)))
      · rw [not_and_or, Bool.not_eq_false] at hu
        exact .inr (hu.imp_right .inl)

omit hne in
theorem closeGroup_fDoc : r.closeGroup.fDoc = r.fDoc := by
  have hpop (r : RtfReader) : r.popState.fDoc = r.fDoc := by
    unfold RtfReader.popState
    split <;> rfl
  unfold RtfReader.closeGroup
  dsimp only
  split
  · exact hpop _
  · exact hpop _

omit hne in
theorem charInTable_fDoc (c : Byte) : (r.charInTable c).fDoc = r.fDoc := by
  have hstore : r.storeName.fDoc = r.fDoc := by
    unfold RtfReader.storeName
    split <;> rfl
  unfold RtfReader.charInTable
  dsimp only
  split_ifs <;> first | rfl | exact hstore

/-- **Whatever a turn writes, it writes behind the text**: in front of a `\u` word, the bytes of `EmitUnicode`. -/
theorem step_writes {s : List Byte} (hs : s ≠ []) : ∃ x, Writes r (r.step s).1 x ∧
    (∀ n ∈ unicodeWord r s, x = cString (emitted n)) ∧ (unicodeWord r s = none → Other s x) := by
  have hsame {r' : RtfReader} (h : r'.fDoc = r.fDoc) : Writes r r' [] := .same hne h
  obtain ⟨c, s, rfl⟩ := List.exists_cons_of_ne_nil hs
  have hnot (h : c ≠ ascii '\\') : ∀ n ∈ unicodeWord r (c :: s), ∀ x, x = cString (emitted n) := by
    rw [show unicodeWord r (c :: s) = none from if_neg fun hc => h hc.1]
    nofun
  unfold RtfReader.step
  dsimp only
  split_ifs with hopen hclose hback hline htable
  · exact ⟨[], hsame rfl, fun n hn => hnot (by rw [hopen]; decide) n hn _, fun _ => .inl rfl⟩
  · exact ⟨[], hsame closeGroup_fDoc, fun n hn => hnot (by rw [hclose]; decide) n hn _, fun _ => .inl rfl⟩
  · rw [hback]
    exact control_writes hne s
  · exact ⟨[], hsame rfl, fun n hn => hnot hback n hn _, fun _ => .inl rfl⟩
  · exact ⟨[], hsame (charInTable_fDoc c), fun n hn => hnot hback n hn _, fun _ => .inl rfl⟩
  · exact ⟨cString [c.val], .emit hne _, fun n hn => hnot hback n hn _,
      fun _ => .inr (.inr (.inr (.inl ⟨c, List.mem_cons_self, rfl⟩)))⟩

end

/-! ## What `EmitUnicode` makes of a number -/

theorem raw_cString : ∀ {b : List UInt8}, (∀ x ∈ b, x ≠ 0) → raw (cString b) = b
  | [], _ => rfl
  | x :: b, h => by
    have hx : x ≠ 0 := h x List.mem_cons_self
    unfold cString
    rw [dif_pos hx]
    exact congrArg (x :: ·) (raw_cString fun y hy => h y (List.mem_cons_of_mem _ hy))

theorem or_lead {k b x : Nat} (hx : x < 2 ^ k) : (2 ^ k * b) ||| x = x + 2 ^ k * b := by
  rw [← Nat.two_pow_add_eq_or_of_lt hx, Nat.add_comm]

theorem or_tail (u : Nat) : 0x80 ||| u &&& 0x3F = u % 0x40 + 0x80 := by
  have hmask : u &&& 0x3F = u % 2 ^ 6 := Nat.and_two_pow_sub_one_eq_mod u 6
  rw [hmask]
  exact or_lead (k := 6) (b := 2) (Nat.mod_lt _ (by decide))

/-- **It is UTF-8's way**, for a code point that is at most 16 bits long. -/
theorem emitted_eq {n : Int} (h : Is16 n) : emitted n = utf8 (unitOf n) := by
  obtain ⟨hlow, hhigh⟩ := h
  have hlt : unitOf n < 65536 := by unfold unitOf; omega
  have hcp : (if n < 0 then n + 65536 else n) = (unitOf n : Int) := by unfold unitOf; split <;> omega
  have hshift (k : Nat) : unitOf n >>> k = unitOf n / 2 ^ k := Nat.shiftRight_eq_div_pow ..
  unfold emitted utf8
  dsimp only
  rw [hcp, Int.toNat_natCast]
  generalize unitOf n = u at *
  by_cases hone : u ≤ 0x7F
  · rw [if_pos (by omega), if_pos hone]
    unfold toChar
    rw [show ((u : Int) % 256).toNat = u by omega]
  by_cases htwo : u ≤ 0x7FF
  · have hlead : 0xC0 ||| u >>> 6 = u / 64 % 0x20 + 0xC0 := by
      have hor : 0xC0 ||| u / 2 ^ 6 = u / 2 ^ 6 + 0xC0 := or_lead (k := 6) (b := 3) (by omega)
      rw [hshift, hor]
      omega
    rw [if_neg (by omega), if_pos (by omega), if_neg hone, if_pos htwo, hlead, or_tail]
  have hlead : 0xE0 ||| u >>> 12 = u / 4096 % 0x10 + 0xE0 := by
    have hor : 0xE0 ||| u / 2 ^ 12 = u / 2 ^ 12 + 0xE0 := or_lead (k := 4) (b := 14) (by omega)
    rw [hshift, hor]
    omega
  rw [if_neg (by omega), if_neg (by omega), if_neg hone, if_neg htwo, if_pos (by omega), hlead, or_tail, or_tail, hshift]
  rfl

theorem raw_emitted {n : Int} (h : Is16 n) : raw (cString (emitted n)) = if unitOf n = 0 then [] else utf8 (unitOf n) := by
  rw [emitted_eq h]
  split
  · next h0 =>
    rw [h0]
    rfl
  rename_i h0
  refine raw_cString fun x hx he => h0 ?_
  subst he
  exact Json.of_mem_utf8 (by decide) hx

/-! ## One word after the other -/

theorem unitOf_lt (n : Int) : unitOf n < 65536 := by
  unfold unitOf
  omega

theorem not_surrogate {u : Nat} (h : isSurrogate u = false) : u < 0xD800 ∨ 0xE000 ≤ u := by
  unfold isSurrogate isHigh isLow at h
  simp only [Bool.or_eq_false_iff, Bool.and_eq_false_iff, decide_eq_false_iff_not] at h
  omega

theorem surrogate_range {u : Nat} (h : isSurrogate u = true) : 0xD800 ≤ u ∧ u < 0xE000 := by
  unfold isSurrogate isHigh isLow at h
  simp only [Bool.or_eq_true, Bool.and_eq_true, decide_eq_true_eq] at h
  omega

theorem Alone.of_plain {n : Int} {b : List UInt8} (h : Is16 n → isSurrogate (unitOf n) = false ∧ b = utf8 (unitOf n)) : Alone n b := fun hn => by
  rw [(h hn).1, if_neg Bool.false_ne_true]
  exact (h hn).2

theorem faithful_of_plain : ∀ {l : List (Option Int × List UInt8)},
    (∀ n b, (some n, b) ∈ l → Is16 n → isSurrogate (unitOf n) = false ∧ b = utf8 (unitOf n)) → Faithful l
  | [], _ => trivial
  | (none, _) :: rest, h => faithful_of_plain (l := rest) fun n b hb => h n b (List.mem_cons_of_mem _ hb)
  | [(some n, b)], h => .of_plain (h n b List.mem_cons_self)
  | (some n, b) :: (none, b') :: rest, h =>
    ⟨.of_plain (h n b List.mem_cons_self),
      faithful_of_plain (l := (none, b') :: rest) fun m x hx => h m x (List.mem_cons_of_mem _ hx)⟩
  | (some n, b) :: (some m, b') :: rest, h => by
    have hnot : ¬ (Is16 n ∧ Is16 m ∧ isHigh (unitOf n) = true ∧ isLow (unitOf m) = true) := fun hpair => by
      have hn := (h n b List.mem_cons_self hpair.1).1
      unfold isSurrogate at hn
      rw [hpair.2.2.1, Bool.true_or] at hn
      exact Bool.noConfusion hn
    unfold Faithful
    rw [if_neg hnot]
    exact ⟨.of_plain (h n b List.mem_cons_self),
      faithful_of_plain (l := (some m, b') :: rest) fun k x hx => h k x (List.mem_cons_of_mem _ hx)⟩

theorem Alone.plain {n : Int} {b : List UInt8} (h : Alone n b) (hn : Is16 n) (hb : b = if unitOf n = 0 then [] else utf8 (unitOf n)) :
    unitOf n ≠ 0 ∧ isSurrogate (unitOf n) = false := by
  have hmeant := h hn
  cases hs : isSurrogate (unitOf n) with
  | true =>
    have hrange := surrogate_range hs
    rw [hs, if_pos rfl, hb, if_neg (by omega)] at hmeant
    exact absurd hmeant (Json.not_utf8_surrogate hrange)
  | false =>
    rw [hs, if_neg Bool.false_ne_true, hb] at hmeant
    refine ⟨fun h0 => ?_, rfl⟩
    rw [if_pos h0, h0] at hmeant
    exact absurd hmeant.symm (List.cons_ne_nil _ _)

theorem length_utf8_surrogate {u : Nat} (h : 0xD800 ≤ u ∧ u < 0xE000) : (utf8 u).length = 3 := by
  unfold utf8
  rw [if_neg (by omega), if_neg (by omega), if_pos (by omega)]
  rfl

theorem plain_of_faithful : ∀ {l : List (Option Int × List UInt8)}, Faithful l →
    (∀ n b, (some n, b) ∈ l → Is16 n → b = if unitOf n = 0 then [] else utf8 (unitOf n)) →
    ∀ n b, (some n, b) ∈ l → Is16 n → unitOf n ≠ 0 ∧ isSurrogate (unitOf n) = false
  | [], _, _, n, b, hmem, _ => absurd hmem List.not_mem_nil
  | (none, _) :: rest, h, hb, n, b, hmem, hn =>
    plain_of_faithful (l := rest) h (fun m x hx => hb m x (List.mem_cons_of_mem _ hx)) n b
      ((List.mem_cons.1 hmem).resolve_left (fun he => nomatch (Prod.mk.inj he).1)) hn
  | [(some m, x)], h, hb, n, b, hmem, hn => by
    obtain ⟨hm, rfl⟩ := Prod.mk.inj (List.mem_singleton.1 hmem)
    obtain rfl := Option.some.inj hm
    exact Alone.plain h hn (hb n b hmem hn)
  | (some m, x) :: (none, b') :: rest, h, hb, n, b, hmem, hn => by
    rcases List.mem_cons.1 hmem with he | hrest
    · obtain ⟨hm, rfl⟩ := Prod.mk.inj he
      obtain rfl := Option.some.inj hm
      exact h.1.plain hn (hb n b hmem hn)
    · exact plain_of_faithful h.2 (fun k y hy => hb k y (List.mem_cons_of_mem _ hy)) n b hrest hn
  | (some m, x) :: (some k, b') :: rest, h, hb, n, b, hmem, hn => by
    unfold Faithful at h
    split at h
    · next hpair =>
      -- the halves are three bytes each, and the character four
      obtain ⟨hm, hk, hhigh, hlow⟩ := hpair
      have hrm : 0xD800 ≤ unitOf m ∧ unitOf m < 0xE000 := surrogate_range (by unfold isSurrogate; rw [hhigh, Bool.true_or])
      have hrk : 0xD800 ≤ unitOf k ∧ unitOf k < 0xE000 := surrogate_range (by unfold isSurrogate; rw [hlow, Bool.or_true])
      have hx := hb m x List.mem_cons_self hm
      have hb' := hb k b' (List.mem_cons_of_mem _ List.mem_cons_self) hk
      rw [if_neg (by omega)] at hx hb'
      have hlength := congrArg List.length h.1
      rw [List.length_append, hx, hb', length_utf8_surrogate hrm, length_utf8_surrogate hrk] at hlength
      unfold utf8 at hlength
      split_ifs at hlength <;> simp only [List.length_cons, List.length_nil] at hlength <;> omega
    · rcases List.mem_cons.1 hmem with he | hrest
      · obtain ⟨hm, rfl⟩ := Prod.mk.inj he
        obtain rfl := Option.some.inj hm
        exact h.1.plain hn (hb n b hmem hn)
      · exact plain_of_faithful h.2 (fun j y hy => hb j y (List.mem_cons_of_mem _ hy)) n b hrest hn

/-! ## The loop -/

theorem raw_append (a b : List Byte) : raw (a ++ b) = raw a ++ raw b := List.map_append

theorem places_spec : ∀ {fuel : Nat} {r : RtfReader} {s : List Byte}, r.fDoc.fParas ≠ [] →
    ∀ c ∈ Scan.places RtfReader.inGroup RtfReader.step fuel r s, c.1.fDoc.fParas ≠ [] ∧ c.2 ≠ []
  | 0, _, _, _, c, hc => absurd hc List.not_mem_nil
  | fuel + 1, r, s, hne, c, hc => by
    unfold Scan.places at hc
    split at hc
    · exact absurd hc List.not_mem_nil
    rename_i hgo
    have hs : s ≠ [] := fun he => hgo (by rw [he]; rfl)
    rcases List.mem_cons.1 hc with rfl | hc
    · exact ⟨hne, hs⟩
    · obtain ⟨x, hw, -⟩ := step_writes hne hs
      exact places_spec hw.ne c hc

theorem rtfPlaces_spec {d : PWDocument} (hne : d.fParas ≠ []) {s : List Byte} :
    ∀ c ∈ d.rtfPlaces s, c.1.fDoc.fParas ≠ [] ∧ c.2 ≠ [] := by
  unfold PWDocument.rtfPlaces
  split
  · exact fun c hc => absurd hc List.not_mem_nil
  · split
    · exact places_spec hne
    · exact fun c hc => absurd hc List.not_mem_nil

theorem Writes.written {r r' : RtfReader} {x : List Byte} (h : Writes r r' x) :
    (plainText r'.fDoc.fParas).drop (plainText r.fDoc.fParas).length = x := by
  rw [h.text, List.drop_left]

theorem added_word {c : RtfReader × List Byte} (hne : c.1.fDoc.fParas ≠ []) (hs : c.2 ≠ []) {n : Int} (hn : unicodeWord c.1 c.2 = some n)
    (h16 : Is16 n) : raw (Writer.added c) = if unitOf n = 0 then [] else utf8 (unitOf n) := by
  obtain ⟨x, hw, hword, -⟩ := step_writes hne hs
  unfold Writer.added
  rw [hw.written, hword n hn, raw_emitted h16]

theorem of_mem_contributions {d : PWDocument} (hne : d.fParas ≠ []) {s : List Byte} {n : Int} {b : List UInt8}
    (h : (some n, b) ∈ contributions d s) (h16 : Is16 n) :
    b = if unitOf n = 0 then [] else utf8 (unitOf n) := by
  obtain ⟨c, hc, he⟩ := List.mem_map.1 (List.mem_filter.1 h).1
  obtain ⟨hn, rfl⟩ := Prod.mk.inj he
  obtain ⟨hne', hs⟩ := rtfPlaces_spec hne c hc
  exact added_word hne' hs hn h16

theorem mem_contributions {d : PWDocument} {s : List Byte} {c : RtfReader × List Byte} (hc : c ∈ d.rtfPlaces s) {n : Int}
    (hn : unicodeWord c.1 c.2 = some n) : (some n, raw (Writer.added c)) ∈ contributions d s :=
  List.mem_filter.2 ⟨List.mem_map.2 ⟨c, hc, by rw [hn]⟩, rfl⟩

theorem faithful_iff {d : PWDocument} (hne : d.fParas ≠ []) {s : List Byte} : Faithful (contributions d s) ↔ PlainWords d s := by
  constructor
  · exact fun h c hc n hn h16 =>
      plain_of_faithful h (fun m b hb hm => of_mem_contributions hne hb hm) n _ (mem_contributions hc hn) h16
  · refine fun h => faithful_of_plain fun n b hb h16 => ?_
    obtain ⟨c, hc, he⟩ := List.mem_map.1 (List.mem_filter.1 hb).1
    obtain ⟨hzero, hplain⟩ := h c hc n (Prod.mk.inj he).1 h16
    exact ⟨hplain, by rw [of_mem_contributions hne hb h16, if_neg hzero]⟩

/-! ## UTF-8 stays UTF-8 -/

theorem raw_ascii {b : UInt8} (hb : b.toNat < 0x80) : Utf8 (raw (cString [b])) := by
  unfold cString
  split
  · exact .ascii hb
  · exact .nil

theorem utf8_step {r : RtfReader} {s : List Byte} (hne : r.fDoc.fParas ≠ []) (hs : s ≠ []) (hascii : ∀ c ∈ s, c.val.toNat < 0x80)
    (hescape : ¬ HexEscape s)
    (hwords : ∀ n, unicodeWord r s = some n → Is16 n ∧ unitOf n ≠ 0 ∧ isSurrogate (unitOf n) = false)
    (h : Utf8 (raw (plainText r.fDoc.fParas))) : Utf8 (raw (plainText (r.step s).1.fDoc.fParas)) := by
  obtain ⟨x, hw, hword, hother⟩ := step_writes hne hs
  rw [hw.text, raw_append]
  refine h.append ?_
  cases hu : unicodeWord r s with
  | some n =>
    obtain ⟨h16, hzero, hplain⟩ := hwords n hu
    rw [hword n hu, raw_emitted h16, if_neg hzero]
    have hlt := unitOf_lt n
    exact Json.isUtf8 ((not_surrogate hplain).imp id fun h => ⟨h, by omega⟩)
  | none =>
    rcases hother hu with rfl | rfl | rfl | ⟨c, hc, rfl⟩ | ⟨hhex, -⟩
    · exact .nil
    · exact .ascii (by decide)
    · exact raw_ascii (by decide)
    · exact raw_ascii (hascii c hc)
    · exact absurd hhex hescape

theorem utf8_loop : ∀ {fuel : Nat} {r : RtfReader} {s : List Byte}, r.fDoc.fParas ≠ [] → (∀ c ∈ s, c.val.toNat < 0x80) →
    (∀ c ∈ Scan.places RtfReader.inGroup RtfReader.step fuel r s, ¬ HexEscape c.2 ∧
      ∀ n, unicodeWord c.1 c.2 = some n → Is16 n ∧ unitOf n ≠ 0 ∧ isSurrogate (unitOf n) = false) →
    Utf8 (raw (plainText r.fDoc.fParas)) →
    (Scan.loop RtfReader.inGroup RtfReader.step fuel r s).fDoc.fParas ≠ [] ∧
      Utf8 (raw (plainText (Scan.loop RtfReader.inGroup RtfReader.step fuel r s).fDoc.fParas))
  | 0, _, _, hne, _, _, h => ⟨hne, h⟩
  | fuel + 1, r, s, hne, hascii, hplaces, h => by
    unfold Scan.loop
    unfold Scan.places at hplaces
    split
    · exact ⟨hne, h⟩
    rename_i hgo
    rw [if_neg hgo] at hplaces
    have hs : s ≠ [] := fun he => hgo (by rw [he]; rfl)
    obtain ⟨c, t, rfl⟩ := List.exists_cons_of_ne_nil hs
    obtain ⟨hhere, hrest⟩ := List.forall_mem_cons.1 hplaces
    obtain ⟨x, hw, -⟩ := step_writes hne hs
    refine utf8_loop hw.ne (fun y hy => hascii y ?_) hrest (utf8_step hne hs hascii hhere.1 hhere.2 h)
    exact List.mem_cons_of_mem _ ((suffix_step r c t).subset hy)

theorem utf8_plainText : ∀ {ps : List Para}, Utf8 (raw (plainText ps)) ↔ ∀ p ∈ ps, Utf8 (raw p.text)
  | [] => ⟨fun _ p hp => absurd hp List.not_mem_nil, fun _ => .nil⟩
  | [p] => by
    rw [List.forall_mem_singleton]
    exact Iff.of_eq (congrArg (fun t => Utf8 (raw t)) (by simp [plainText]))
  | p :: q :: ps => by
    have hcons : raw (plainText (p :: q :: ps)) = raw p.text ++ 10 :: raw (plainText (q :: ps)) := by
      have hplain : plainText (p :: q :: ps) = p.text ++ newline :: plainText (q :: ps) := by simp [plainText, List.intercalate]
      rw [hplain, raw_append]
      rfl
    rw [hcons, List.forall_mem_cons, ← utf8_plainText]
    exact ⟨fun h => h.cut (by decide), fun h => h.1.append ((Utf8.ascii (x := 10) (by decide)).append h.2)⟩

/-- **Every `\u` word contributes its character, and a file of them leaves UTF-8, exactly if none that is read is NUL or half a
pair.** -/
theorem loadRTF_unicode_iff {d : PWDocument} (hne : d.fParas ≠ []) (s : List Byte) : UnicodeKept d s ↔ PlainWords d s := by
  refine ⟨fun h => (faithful_iff hne).1 h.words, fun h => ⟨(faithful_iff hne).2 h, fun d' hd' hascii hwords hbefore => ?_⟩⟩
  unfold PWDocument.loadRTF at hd'
  cases s with
  | nil => exact nomatch hd'
  | cons c s =>
    obtain ⟨hc, hd'⟩ := Option.ite_none_right_eq_some.1 hd'
    cases hd'
    have hplaces : d.rtfPlaces (c :: s) = Scan.places RtfReader.inGroup RtfReader.step s.length d.reader s := if_pos hc
    have hend := @utf8_loop s.length d.reader s hne (fun x hx => hascii x (List.mem_cons_of_mem _ hx))
      (fun x hx => ⟨(hwords x (hplaces ▸ hx)).1, fun n hn =>
        have h16 := (hwords x (hplaces ▸ hx)).2 n hn
        ⟨h16, h x (hplaces ▸ hx) n hn h16⟩⟩) (utf8_plainText.2 hbefore)
    refine utf8_plainText.1 ?_
    have hlast := (Writes.same hend.1 rfl).applyParaFormat
      ((Scan.loop RtfReader.inGroup RtfReader.step s.length d.reader s).fDoc.fParas.length - 1)
    have htext := hlast.text
    rw [List.append_nil] at htext
    exact htext ▸ hend.2

instance (d : PWDocument) (s : List Byte) : Decidable (PlainWords d s) :=
  decidable_of_iff (∀ c ∈ d.rtfPlaces s, ∀ n ∈ unicodeWord c.1 c.2, Is16 n → unitOf n ≠ 0 ∧ isSurrogate (unitOf n) = false) Iff.rfl

def euro : List Byte := chars "\x7ba\\u8364?\\b b\\u-1793 ?\x7d"

theorem euro_kept : UnicodeKept (PWDocument.new noFamily) euro :=
  (loadRTF_unicode_iff (by decide) euro).2 (by decide)

example : ((PWDocument.new noFamily).loadRTF euro).map (fun d => d.fParas.map (fun p => raw p.text)) =
    some [[97, 0xE2, 0x82, 0xAC, 98, 0xEF, 0xA3, 0xBF]] := by
  decide

def smiley : List Byte := chars "\x7b\\u-10179?\\u-8704?\x7d"

/-- **A pair leaves six bytes**, and they are not UTF-8. -/
theorem smiley_broken : ¬ UnicodeKept (PWDocument.new noFamily) smiley := fun h =>
  absurd ((faithful_iff (by decide)).1 h.words) (by decide)

example : ((PWDocument.new noFamily).loadRTF smiley).map (fun d => d.fParas.map (fun p => raw p.text)) =
    some [[0xED, 0xA0, 0xBD, 0xED, 0xB8, 0x80]] := by
  decide

end Writer
end Prose
