import Prose.ClangdColumns
/-!
# ClangdSnap — columns between characters

A line is its characters.  A byte column in a character snaps to its first byte, and comes back from UTF-16 to that, unless
the character is one of two units: `Utf16FromByte` gives the column between its units then, and `ByteFromUtf16` the end of
the character.
-/
namespace Prose
namespace Clangd

open List

abbrev Line := { cs : List Char // '\x00' ∉ cs }

def encode (cs : List Char) : Bytes := cs.flatMap String.utf8EncodeChar

/-- How many bytes of UTF-8 and how many units of UTF-16 a character has. -/
def utf8Width (c : Char) : Nat := (String.utf8EncodeChar c).length

def utf16Width (c : Char) : Nat := if c.toNat < 0x10000 then 1 else 2

def utf16Length (cs : List Char) : Nat := (cs.map utf16Width).sum

def IsBoundary (cs : List Char) (i : Nat) : Prop := ∃ pre, pre <+: cs ∧ (encode pre).length = i

def InPair (cs : List Char) (col : Nat) : Prop :=
  ∃ pre c, pre ++ [c] <+: cs ∧ 0x10000 ≤ c.toNat ∧ (encode pre).length < col ∧ col < (encode (pre ++ [c])).length

/-! ## Characters -/

theorem announced_eq (x : UInt8) : announced x = Writer.leadWidth x.toNat := by
  have hall : ∀ v : Fin 256, announced (UInt8.ofFin v) = Writer.leadWidth v.val := by decide +kernel
  exact hall x.toFin

theorem utf8Width_eq_four (c : Char) : utf8Width c = 4 ↔ 0x10000 ≤ c.toNat := by
  unfold utf8Width
  rw [← Json.utf8_char]
  unfold Json.utf8
  split_ifs <;> simp only [length_cons, length_nil] <;> first | omega | exact iff_of_true trivial (by omega)

theorem char_shape {c : Char} (hc : c ≠ '\x00') : ∃ x xs, String.utf8EncodeChar c = x :: xs ∧ x ≠ 0 ∧
    announced x = utf8Width c ∧ unitsOf x = utf16Width c := by
  obtain ⟨x, xs, heq, hwidth, -, -⟩ := Writer.utf8_shape c.toNat
  have hbytes : String.utf8EncodeChar c = x :: xs := (Json.utf8_char c).symm.trans heq
  have hlength : announced x = utf8Width c := by
    rw [announced_eq, utf8Width, hbytes, ← hwidth, length_cons]
  refine ⟨x, xs, hbytes, fun hx => hc ?_, hlength, ?_⟩
  · have hn := Json.of_mem_encode (x := x) (c := c) (by rw [hx]; decide) (by rw [hbytes]; exact mem_cons_self)
    rw [hx] at hn
    exact Char.toNat_inj.1 hn
  · unfold unitsOf utf16Width
    rw [hlength]
    refine (if_congr ((utf8Width_eq_four c).trans not_lt.symm) rfl rfl).trans (ite_not _ _ _)

theorem utf8Width_pos (c : Char) : 0 < utf8Width c := length_pos_of_ne_nil String.utf8EncodeChar_ne_nil

theorem utf16Width_pos (c : Char) : 0 < utf16Width c := by
  unfold utf16Width
  split <;> decide

theorem encode_cons (c : Char) (cs : List Char) : encode (c :: cs) = String.utf8EncodeChar c ++ encode cs := flatMap_cons

theorem length_encode_cons (c : Char) (cs : List Char) : (encode (c :: cs)).length = utf8Width c + (encode cs).length := by
  rw [encode_cons, length_append, utf8Width]

theorem encode_append (cs ds : List Char) : encode (cs ++ ds) = encode cs ++ encode ds := flatMap_append

theorem length_encode_snoc (pre : List Char) (c : Char) : (encode (pre ++ [c])).length = (encode pre).length + utf8Width c := by
  rw [encode_append, length_append, length_encode_cons]
  rfl

theorem encode_snoc (pre : List Char) (c : Char) (cs : List Char) :
    encode (pre ++ [c]) ++ encode cs = encode pre ++ encode (c :: cs) := by
  rw [encode_append, append_assoc, ← encode_append]
  rfl

theorem utf16Length_cons (c : Char) (cs : List Char) : utf16Length (c :: cs) = utf16Width c + utf16Length cs := sum_cons

def Line.bytes (line : Line) : CString := ⟨encode line.1, fun h => by
  obtain ⟨c, hc, hmem⟩ := mem_flatMap.1 h
  have hn := Json.of_mem_encode (x := 0) (c := c) (by decide) hmem
  have hzero : c = '\x00' := Char.toNat_inj.1 hn
  exact line.2 (hzero ▸ hc)⟩

/-! ## The loops on characters -/

/-- What `Utf16FromByte` counts of the characters behind a place between two. -/
def unitsBefore : List Char → Nat → Nat
  | [], _ => 0
  | c :: cs, col =>
    if col = 0 then 0
    else if col < utf8Width c then utf16Width c - 1
    else utf16Width c + unitsBefore cs (col - utf8Width c)

/-- What `ByteFromUtf16` counts. -/
def bytesBefore : List Char → Nat → Nat
  | [], _ => 0
  | c :: cs, col => if col = 0 then 0 else utf8Width c + bytesBefore cs (col - utf16Width c)

theorem unitsBefore_cons (c : Char) (cs : List Char) (col : Nat) : unitsBefore (c :: cs) col =
    if col = 0 then 0 else if col < utf8Width c then utf16Width c - 1 else utf16Width c + unitsBefore cs (col - utf8Width c) := rfl

theorem bytesBefore_cons (c : Char) (cs : List Char) (col : Nat) :
    bytesBefore (c :: cs) col = if col = 0 then 0 else utf8Width c + bytesBefore cs (col - utf16Width c) := rfl

theorem read_char (pre : List Char) {c : Char} (hc : c ≠ '\x00') (cs : List Char) : ∃ x, (encode pre ++ encode (c :: cs))[(encode pre).length]? = some x ∧
    x ≠ 0 ∧ announced x = utf8Width c ∧ unitsOf x = utf16Width c := by
  obtain ⟨x, xs, hbytes, hx, hwidth, hunits⟩ := char_shape hc
  refine ⟨x, ?_, hx, hwidth, hunits⟩
  rw [getElem?_append_right (Nat.le_refl _), Nat.sub_self, encode_cons, hbytes]
  rfl

theorem utf16Loop_chars : ∀ (cs pre : List Char) (col units : Nat), '\x00' ∉ cs →
    utf16Loop (encode pre ++ encode cs) col units (encode pre).length = some (units + unitsBefore cs (col - (encode pre).length))
  | [], pre, col, units, _ => by
    have hend := @utf16Loop_end (encode pre ++ encode []) col units
    rw [length_append] at hend
    exact hend
  | c :: cs, pre, col, units, h => by
    obtain ⟨hc, hcs⟩ := not_or.1 (mt mem_cons.2 h)
    obtain ⟨x, hread, hx, hwidth, hunits⟩ := read_char pre (Ne.symm hc) cs
    have ih := utf16Loop_chars cs (pre ++ [c]) col (units + utf16Width c) hcs
    rw [encode_snoc, length_encode_snoc, Nat.sub_add_eq] at ih
    rw [utf16Loop_char hread hx, hwidth, hunits, ih]
    rw [unitsBefore_cons]
    by_cases h1 : col ≤ (encode pre).length
    · rw [if_pos (by exact_mod_cast h1), if_pos (by omega)]
      rfl
    rw [if_neg (by exact_mod_cast h1)]
    by_cases h2 : col < (encode pre).length + utf8Width c
    · rw [if_pos (by exact_mod_cast h2), if_neg (by omega), if_pos (by omega)]
    · rw [if_neg (by exact_mod_cast h2), if_neg (by omega), if_neg (by omega), Nat.add_assoc]

theorem byteLoop_chars : ∀ (cs pre : List Char) (col units : Nat), '\x00' ∉ cs →
    byteLoop (encode pre ++ encode cs) col units (encode pre).length = some ((encode pre).length + bytesBefore cs (col - units))
  | [], pre, col, units, _ => by
    have hend := @byteLoop_end (encode pre ++ encode []) col units
    rw [length_append] at hend
    exact hend
  | c :: cs, pre, col, units, h => by
    obtain ⟨hc, hcs⟩ := not_or.1 (mt mem_cons.2 h)
    obtain ⟨x, hread, hx, hwidth, hunits⟩ := read_char pre (Ne.symm hc) cs
    have ih := byteLoop_chars cs (pre ++ [c]) col (units + utf16Width c) hcs
    rw [encode_snoc, length_encode_snoc, Nat.sub_add_eq] at ih
    rw [byteLoop_char hread hx, hwidth, hunits, ih]
    rw [bytesBefore_cons]
    by_cases h1 : col ≤ units
    · rw [if_pos (by exact_mod_cast h1), if_pos (by omega)]
      rfl
    · rw [if_neg (by exact_mod_cast h1), if_neg (by omega), Nat.add_assoc]

theorem utf16FromByte_line (line : Line) (col : Nat) : utf16FromByte line.bytes.1 col = some (unitsBefore line.1 col) := by
  have h := utf16Loop_chars line.1 [] col 0 line.2
  rwa [Nat.zero_add] at h

theorem byteFromUtf16_line (line : Line) (col : Nat) : byteFromUtf16 line.bytes.1 col = some (bytesBefore line.1 col) := by
  have h := byteLoop_chars line.1 [] col 0 line.2
  rwa [show (encode []).length = 0 from rfl, Nat.zero_add] at h

/-! ## There and back -/

theorem isBoundary_cons {c : Char} {cs : List Char} {i : Nat} :
    IsBoundary (c :: cs) i ↔ i = 0 ∨ ∃ j, IsBoundary cs j ∧ i = utf8Width c + j := by
  constructor
  · rintro ⟨pre, hpre, rfl⟩
    cases pre with
    | nil => exact Or.inl rfl
    | cons d pre =>
      obtain ⟨rfl, hrest⟩ := cons_prefix_cons.1 hpre
      exact Or.inr ⟨_, ⟨pre, hrest, rfl⟩, length_encode_cons d pre⟩
  · rintro (rfl | ⟨j, ⟨pre, hpre, rfl⟩, rfl⟩)
    · exact ⟨[], nil_prefix, rfl⟩
    · exact ⟨c :: pre, cons_prefix_cons.2 ⟨rfl, hpre⟩, length_encode_cons c pre⟩

theorem inPair_nil (col : Nat) : ¬ InPair [] col := by
  rintro ⟨pre, c, hpre, -⟩
  exact absurd (prefix_nil.1 hpre) (append_ne_nil_of_right_ne_nil _ (cons_ne_nil _ _))

theorem inPair_cons {c : Char} {cs : List Char} {col : Nat} :
    InPair (c :: cs) col ↔ (0x10000 ≤ c.toNat ∧ 0 < col ∧ col < utf8Width c) ∨ utf8Width c ≤ col ∧ InPair cs (col - utf8Width c) := by
  constructor
  · rintro ⟨pre, d, hpre, hd, h1, h2⟩
    rw [length_encode_snoc] at h2
    cases pre with
    | nil =>
      obtain ⟨rfl, -⟩ := cons_prefix_cons.1 hpre
      exact Or.inl ⟨hd, h1, by rwa [show (encode []).length = 0 from rfl, Nat.zero_add] at h2⟩
    | cons e pre =>
      obtain ⟨rfl, hrest⟩ := cons_prefix_cons.1 hpre
      rw [length_encode_cons] at h1 h2
      exact Or.inr ⟨by omega, pre, d, hrest, hd, by omega, by rw [length_encode_snoc]; omega⟩
  · rintro (⟨hd, h1, h2⟩ | ⟨hle, pre, d, hpre, hd, h1, h2⟩)
    · exact ⟨[], c, cons_prefix_cons.2 ⟨rfl, nil_prefix⟩, hd, h1, by rw [length_encode_snoc]; exact Nat.lt_add_left _ h2⟩
    · rw [length_encode_snoc] at h2
      refine ⟨c :: pre, d, cons_prefix_cons.2 ⟨rfl, hpre⟩, hd, ?_, ?_⟩
      · rw [length_encode_cons]
        omega
      · rw [length_encode_snoc, length_encode_cons]
        omega

def Below (cs : List Char) (col : Nat) : Set Nat := { i | IsBoundary cs i ∧ i ≤ min col (encode cs).length }

theorem zero_mem_below (cs : List Char) (col : Nat) : 0 ∈ Below cs col := ⟨⟨[], nil_prefix, rfl⟩, Nat.zero_le _⟩

theorem isGreatest_below_cons {c : Char} {cs : List Char} {col b : Nat} (h : utf8Width c ≤ col) :
    IsGreatest (Below (c :: cs) col) (utf8Width c + b) ↔ IsGreatest (Below cs (col - utf8Width c)) b := by
  have hmem : ∀ j, utf8Width c + j ∈ Below (c :: cs) col ↔ j ∈ Below cs (col - utf8Width c) := by
    intro j
    have hpos := utf8Width_pos c
    show (IsBoundary _ _ ∧ _ ≤ _) ↔ (IsBoundary _ _ ∧ _ ≤ _)
    rw [isBoundary_cons, length_encode_cons]
    constructor
    · rintro ⟨hzero | ⟨j', hj', heq⟩, hle⟩
      · omega
      · obtain rfl := Nat.add_left_cancel heq
        exact ⟨hj', by omega⟩
    · rintro ⟨hj, hle⟩
      exact ⟨Or.inr ⟨j, hj, rfl⟩, by omega⟩
  refine and_congr (hmem b) ⟨fun hub j hj => Nat.le_of_add_le_add_left (hub ((hmem j).2 hj)), fun hub i hi => ?_⟩
  rcases isBoundary_cons.1 hi.1 with rfl | ⟨j, hj, rfl⟩
  · exact Nat.zero_le _
  · exact Nat.add_le_add_left (hub ((hmem j).1 hi)) _

theorem isGreatest_below_first {c : Char} {cs : List Char} {col : Nat} (h : col < utf8Width c) : IsGreatest (Below (c :: cs) col) 0 := by
  refine ⟨zero_mem_below _ _, fun i hi => ?_⟩
  rcases isBoundary_cons.1 hi.1 with rfl | ⟨j, -, rfl⟩
  · exact Nat.le_refl 0
  · have hle := hi.2
    omega

theorem bytesBefore_zero (cs : List Char) : bytesBefore cs 0 = 0 := by
  cases cs with
  | nil => rfl
  | cons c cs => exact if_pos rfl

/-- **A column comes back to the boundary before it if and only if it is not in a pair.** -/
theorem bytesBefore_unitsBefore : ∀ (cs : List Char) (col : Nat),
    IsGreatest (Below cs col) (bytesBefore cs (unitsBefore cs col)) ↔ ¬ InPair cs col
  | [], col => by
    refine iff_of_true ⟨zero_mem_below _ _, fun i hi => ?_⟩ (inPair_nil col)
    exact Nat.le_trans hi.2 (Nat.min_le_right _ _)
  | c :: cs, col => by
    have hpos := utf8Width_pos c
    have hunits := utf16Width_pos c
    rw [unitsBefore_cons, inPair_cons]
    by_cases h0 : col = 0
    · rw [if_pos h0, bytesBefore_zero]
      exact iff_of_true (isGreatest_below_first (by omega)) (by omega)
    rw [if_neg h0]
    by_cases h1 : col < utf8Width c
    · rw [if_pos h1]
      by_cases hpair : 0x10000 ≤ c.toNat
      · -- one unit of two: the whole character is passed
        have htwo : utf16Width c = 2 := if_neg (Nat.not_lt.2 hpair)
        rw [htwo, bytesBefore_cons, if_neg (by decide), htwo, bytesBefore_zero]
        refine iff_of_false (fun hg => ?_) (not_not.2 (Or.inl ⟨hpair, by omega, h1⟩))
        have hle := hg.1.2
        omega
      · have hone : utf16Width c = 1 := if_pos (Nat.not_le.1 hpair)
        rw [hone, bytesBefore_zero]
        exact iff_of_true (isGreatest_below_first h1) (by omega)
    · rw [if_neg h1, bytesBefore_cons, if_neg (by omega), Nat.add_sub_cancel_left, isGreatest_below_cons (Nat.not_lt.1 h1),
        bytesBefore_unitsBefore cs]
      exact not_congr ⟨fun h => Or.inr ⟨Nat.not_lt.1 h1, h⟩, fun h => (h.resolve_left (fun h => h1 h.2.2)).2⟩

theorem before_prefix : ∀ {pre cs : List Char}, pre <+: cs →
    bytesBefore cs (utf16Length pre) = (encode pre).length ∧ unitsBefore cs (encode pre).length = utf16Length pre
  | [], cs, _ => by
    refine ⟨bytesBefore_zero cs, ?_⟩
    cases cs with
    | nil => rfl
    | cons c cs => exact if_pos rfl
  | c :: pre, [], h => absurd (prefix_nil.1 h) (cons_ne_nil _ _)
  | c :: pre, d :: cs, h => by
    obtain ⟨rfl, hpre⟩ := cons_prefix_cons.1 h
    obtain ⟨ihb, ihu⟩ := before_prefix hpre
    have hpos := utf8Width_pos c
    have hunits := utf16Width_pos c
    rw [bytesBefore_cons, unitsBefore_cons, utf16Length_cons, length_encode_cons, if_neg (by omega), if_neg (by omega),
      if_neg (by omega), Nat.add_sub_cancel_left, Nat.add_sub_cancel_left, ihb, ihu]
    exact ⟨rfl, rfl⟩

/-- **A byte column comes back as the boundary before it if and only if it is not inside a character of two units**; a
UTF-16 column between characters always comes back. -/
theorem snaps_iff (line : Line) (col : Nat) :
    ((∃ units b, utf16FromByte line.bytes.1 col = some units ∧ byteFromUtf16 line.bytes.1 units = some b ∧
        IsGreatest { i | IsBoundary line.1 i ∧ i ≤ min col line.bytes.1.length } b) ↔ ¬ InPair line.1 col) ∧
      ∀ pre, pre <+: line.1 → ∃ b, byteFromUtf16 line.bytes.1 (utf16Length pre) = some b ∧
        utf16FromByte line.bytes.1 b = some (utf16Length pre) := by
  constructor
  · rw [← bytesBefore_unitsBefore line.1 col]
    constructor
    · rintro ⟨units, b, hunits, hb, hg⟩
      rw [utf16FromByte_line] at hunits
      cases hunits
      rw [byteFromUtf16_line] at hb
      cases hb
      exact hg
    · exact fun hg => ⟨_, _, utf16FromByte_line line col, byteFromUtf16_line line _, hg⟩
  · intro pre hpre
    obtain ⟨hb, hu⟩ := before_prefix hpre
    exact ⟨_, (byteFromUtf16_line line _).trans (congrArg some hb), (utf16FromByte_line line _).trans (congrArg some hu)⟩

def emoji : Line := ⟨[Char.ofNat 0x1F600], by decide⟩

/-- Its second byte comes back as its end. -/
theorem emoji_not_snapped : ¬ ∀ (line : Line) (col : Nat), ∃ units b, utf16FromByte line.bytes.1 col = some units ∧
    byteFromUtf16 line.bytes.1 units = some b ∧ IsGreatest { i | IsBoundary line.1 i ∧ i ≤ min col line.bytes.1.length } b := by
  intro h
  obtain ⟨units, b, hunits, hb, hg⟩ := h emoji 1
  rw [utf16FromByte_line] at hunits
  cases hunits
  rw [byteFromUtf16_line] at hb
  have hle : b ≤ 1 := Nat.le_trans hg.1.2 (Nat.min_le_left _ _)
  rw [← Option.some.inj hb] at hle
  exact absurd hle (by decide)

end Clangd
end Prose
