import Prose.ClangdJson
/-!
# ClangdJsonTokens — the strings and numbers of the JSON reader

What `ParseString` and `ParseNumber` take, and what they make of it.
-/
namespace Prose
namespace Clangd

open List

open Json (Item HexDigit unit utf8 isHigh isLow hexValue escapeValue)

/-! ## Escapes -/

theorem hexDigit_value (c : HexDigit) : hexValue c.1 = some c.value := (Option.some_get c.2).symm

theorem hexValue_lt {c : UInt8} {n : Nat} (h : hexValue c = some n) : n < 16 := by
  unfold hexValue at h
  simp only [UInt8.le_iff_toNat_le] at h
  have h48 : (48 : UInt8).toNat = 48 := rfl
  have h57 : (57 : UInt8).toNat = 57 := rfl
  have h97 : (97 : UInt8).toNat = 97 := rfl
  have h102 : (102 : UInt8).toNat = 102 := rfl
  have h65 : (65 : UInt8).toNat = 65 := rfl
  have h70 : (70 : UInt8).toNat = 70 := rfl
  split at h
  · rw [← Option.some.inj h]
    omega
  split at h
  · rw [← Option.some.inj h]
    omega
  split at h
  · rw [← Option.some.inj h]
    omega
  · cases h

theorem unit_lt (a b c d : HexDigit) : unit a b c d < 65536 := by
  have ha := hexValue_lt (hexDigit_value a)
  have hb := hexValue_lt (hexDigit_value b)
  have hc := hexValue_lt (hexDigit_value c)
  have hd := hexValue_lt (hexDigit_value d)
  unfold unit
  omega

theorem parseUnicode_digits (a b c d : HexDigit) (s : Bytes) :
    parseUnicode (a.1 :: b.1 :: c.1 :: d.1 :: s) =
      if isLow (unit a b c d) then .error "lone low surrogate" else .ok (unit a b c d, s) := by
  unfold parseUnicode
  dsimp only
  rw [hexDigit_value a, hexDigit_value b, hexDigit_value c, hexDigit_value d]
  dsimp only
  unfold isLow
  simp only [Bool.and_eq_true, decide_eq_true_eq]
  rfl

theorem value_eq {c : UInt8} (hs : (hexValue c).isSome) {n : Nat} (h : hexValue c = some n) :
    HexDigit.value ⟨c, hs⟩ = n :=
  Option.some.inj ((hexDigit_value ⟨c, hs⟩).symm.trans h)

theorem parseUnicode_ok {s s' : Bytes} {cp : Nat} (h : parseUnicode s = .ok (cp, s')) :
    ∃ a b c d : HexDigit, s = a.1 :: b.1 :: c.1 :: d.1 :: s' ∧ cp = unit a b c d ∧ isLow cp = false := by
  unfold parseUnicode at h
  split at h
  · rename_i a b c d s
    split at h
    · rename_i a' b' c' d' ha hb hc hd
      have hunit : ((a' * 16 + b') * 16 + c') * 16 + d' = unit ⟨a, by rw [ha]; rfl⟩ ⟨b, by rw [hb]; rfl⟩
          ⟨c, by rw [hc]; rfl⟩ ⟨d, by rw [hd]; rfl⟩ := by
        unfold unit
        rw [value_eq _ ha, value_eq _ hb, value_eq _ hc, value_eq _ hd]
      dsimp only at h
      split at h
      · cases h
      rename_i hlow
      obtain ⟨rfl, rfl⟩ := Prod.mk.inj (Except.ok.inj h)
      refine ⟨⟨a, by rw [ha]; rfl⟩, ⟨b, by rw [hb]; rfl⟩, ⟨c, by rw [hc]; rfl⟩, ⟨d, by rw [hd]; rfl⟩, rfl, hunit, ?_⟩
      unfold isLow
      rw [← Bool.not_eq_true, Bool.and_eq_true, decide_eq_true_eq, decide_eq_true_eq]
      exact hlow
    · cases h
  · cases h

theorem or_add {b : Nat} (h : b < 64) (k : Nat) : 64 * k ||| b = b + 64 * k := by
  rw [Nat.add_comm]
  exact (Nat.two_pow_add_eq_or_of_lt (i := 6) h k).symm

theorem and_mod (n : Nat) : n &&& 0x3F = n % 0x40 := Nat.and_two_pow_sub_one_eq_mod n 6

theorem shiftRight_div (n k : Nat) : n >>> k = n / 2 ^ k := Nat.shiftRight_eq_div_pow n k

theorem ofNat_ne_zero {n : Nat} (h : 0 < n) (h' : n < 256) : UInt8.ofNat n ≠ 0 := by
  intro he
  have := congrArg UInt8.toNat he
  rw [UInt8.toNat_ofNat'] at this
  change n % 256 = 0 at this
  omega

def appended (cp : Nat) : Bytes := if cp = 0 then [] else utf8 cp

theorem append_zero (out : Bytes) : append out [0] = out := by
  unfold append
  rw [takeWhile_cons_of_neg (by decide), append_nil]

theorem appendUtf8_eq (out : Bytes) {cp : Nat} (h : cp < 65536) : appendUtf8 out cp = some (out ++ appended cp) := by
  have hor3 : ∀ {b : Nat}, b < 64 → 0xC0 ||| b = b + 0xC0 := fun hb => or_add hb 3
  have hor2 : ∀ {b : Nat}, b < 64 → 0x80 ||| b = b + 0x80 := fun hb => or_add hb 2
  have hor7 : ∀ {b : Nat}, b < 32 → 0xE0 ||| b = b + 0xE0 := fun {b} hb => by
    rw [Nat.add_comm]
    exact (Nat.two_pow_add_eq_or_of_lt (i := 5) hb 7).symm
  have hmod : ∀ n, n % 0x40 < 64 := fun n => Nat.mod_lt _ (by decide)
  unfold appendUtf8 appended utf8
  rw [if_neg (show ¬ 0x10FFFF < cp by omega)]
  by_cases h0 : cp = 0
  · rw [h0, if_pos (by decide), if_pos rfl, append_nil]
    exact congrArg some (append_zero out)
  rw [if_neg h0]
  by_cases h1 : cp < 0x80
  · rw [if_pos h1, if_pos (show cp ≤ 0x7F by omega), append_noNul]
    intro c hc
    rw [mem_singleton.1 hc]
    exact ofNat_ne_zero (by omega) (by omega)
  rw [if_neg h1, if_neg (show ¬ cp ≤ 0x7F by omega)]
  by_cases h2 : cp < 0x800
  · rw [if_pos h2, if_pos (show cp ≤ 0x7FF by omega), and_mod, shiftRight_div, hor2 (hmod _), hor3 (by omega),
      show cp / 64 % 0x20 = cp / 2 ^ 6 by omega, append_noNul]
    intro c hc
    rcases mem_cons.1 hc with rfl | hc
    · exact ofNat_ne_zero (by omega) (by omega)
    · rw [mem_singleton.1 hc]
      exact ofNat_ne_zero (by omega) (by omega)
  · rw [if_neg h2, if_neg (show ¬ cp ≤ 0x7FF by omega), if_pos (show cp < 0x10000 by omega),
      if_pos (show cp ≤ 0xFFFF by omega), and_mod, and_mod, shiftRight_div, shiftRight_div, hor2 (hmod _), hor2 (hmod _),
      hor7 (by omega), show cp / 4096 % 0x10 = cp / 2 ^ 12 by omega,
      show cp / 64 % 0x40 = cp / 2 ^ 6 % 0x40 from rfl, append_noNul]
    intro c hc
    rcases mem_cons.1 hc with rfl | hc
    · exact ofNat_ne_zero (by omega) (by omega)
    rcases mem_cons.1 hc with rfl | hc
    · exact ofNat_ne_zero (by omega) (by omega)
    · rw [mem_singleton.1 hc]
      exact ofNat_ne_zero (by omega) (by omega)

/-! ## Strings -/

/-- No second half of a pair, and nothing written `\u` behind a first half. -/
def Readable : List Item → Prop
  | []                => True
  | .unicode a b c d :: s => isLow (unit a b c d) = false ∧
    (isHigh (unit a b c d) = true → ∀ a' b' c' d', s.head? ≠ some (.unicode a' b' c' d')) ∧ Readable s
  | _ :: s            => Readable s

theorem isSome_escape (c : { c // (escapeValue c).isSome }) : (escapeValue c.1).isSome := c.2

def read : List Item → Bytes
  | []                    => []
  | .plain c :: s         => c.1 :: read s
  | .escape c :: s        => (escapeValue c.1).get (isSome_escape c) :: read s
  | .unicode a b c d :: s => appended (unit a b c d) ++ read s

theorem escapeValue_eq {c : UInt8} (h : (escapeValue c).isSome) : escapeValue c = some ((escapeValue c).get h) :=
  (Option.some_get h).symm

theorem parseCodePoint_unit {a b c d : HexDigit} (hlow : isLow (unit a b c d) = false) {s : Bytes}
    (hs : isHigh (unit a b c d) = true → ¬ [92, 117] <+: s) :
    parseCodePoint (a.1 :: b.1 :: c.1 :: d.1 :: s) = .ok (unit a b c d, s) := by
  unfold parseCodePoint
  rw [parseUnicode_digits, hlow, if_neg Bool.false_ne_true]
  dsimp only
  split
  · rename_i s'
    rw [if_neg]
    rintro ⟨h1, h2, -⟩
    refine hs ?_ (prefix_append [92, 117] s')
    unfold isHigh
    rw [Bool.and_eq_true, decide_eq_true_eq, decide_eq_true_eq]
    exact ⟨h1, h2⟩
  · rfl

/-- A unit and nothing more is what could be read: a second half is refused before it is looked at as one. -/
theorem parseCodePoint_ok {s s' : Bytes} {cp : Nat} (h : parseCodePoint s = .ok (cp, s')) :
    ∃ a b c d : HexDigit, s = a.1 :: b.1 :: c.1 :: d.1 :: s' ∧ cp = unit a b c d ∧ isLow cp = false ∧
      (isHigh cp = true → 6 ≤ s'.length → ¬ [92, 117] <+: s') := by
  unfold parseCodePoint at h
  cases h1 : parseUnicode s with
  | error e =>
    rw [h1] at h
    cases h
  | ok r =>
    obtain ⟨cp₁, s₁⟩ := r
    obtain ⟨a, b, c, d, hs, hcp, hlow⟩ := parseUnicode_ok h1
    rw [h1] at h
    dsimp only at h
    split at h
    · rename_i s₂
      split at h
      · cases h2 : parseUnicode s₂ with
        | error e =>
          rw [h2] at h
          cases h
        | ok r₂ =>
          obtain ⟨lo, s₃⟩ := r₂
          obtain ⟨-, -, -, -, -, -, hlo⟩ := parseUnicode_ok h2
          rw [h2] at h
          dsimp only at h
          split at h
          · rename_i hl
            unfold isLow at hlo
            rw [decide_eq_true hl.1, decide_eq_true hl.2] at hlo
            cases hlo
          · cases h
      · rename_i hn
        obtain ⟨rfl, rfl⟩ := Prod.mk.inj (Except.ok.inj h)
        refine ⟨a, b, c, d, hs, hcp, hlow, fun hh hlen _ => hn ?_⟩
        unfold isHigh at hh
        rw [Bool.and_eq_true, decide_eq_true_eq, decide_eq_true_eq] at hh
        exact ⟨hh.1, hh.2, hlen⟩
    · rename_i hn
      obtain ⟨rfl, rfl⟩ := Prod.mk.inj (Except.ok.inj h)
      exact ⟨a, b, c, d, hs, hcp, hlow, fun _ _ ⟨t, ht⟩ => hn t ht.symm⟩

theorem read_append_unicode (out : Bytes) (a b c d : HexDigit) (s : List Item) :
    out ++ appended (unit a b c d) ++ read s = out ++ read (.unicode a b c d :: s) := by
  rw [append_assoc]
  rfl

theorem read_append_plain (out : Bytes) (c : { c : UInt8 // 32 ≤ c ∧ c ≠ 34 ∧ c ≠ 92 }) (s : List Item) :
    out ++ [c.1] ++ read s = out ++ read (.plain c :: s) := by
  rw [append_assoc]
  rfl

theorem read_append_escape (out : Bytes) (c : { c : UInt8 // (escapeValue c).isSome }) (s : List Item) :
    out ++ [(escapeValue c.1).get c.2] ++ read s = out ++ read (.escape c :: s) := by
  rw [append_assoc]
  rfl

theorem parseString_plain (out : Bytes) (c : { c : UInt8 // 32 ≤ c ∧ c ≠ 34 ∧ c ≠ 92 }) (s : Bytes) :
    parseString out (c.1 :: s) = parseString (out ++ [c.1]) s := by
  obtain ⟨c, h32, h34, h92⟩ := c
  rw [parseString.eq_def]
  dsimp only
  rw [if_neg h34, if_neg h92, if_neg (UInt8.not_lt.2 h32)]

theorem parseString_escape (out : Bytes) (c : { c : UInt8 // (escapeValue c).isSome }) (s : Bytes) :
    parseString out (92 :: c.1 :: s) = parseString (out ++ [(escapeValue c.1).get c.2]) s := by
  obtain ⟨c, hc⟩ := c
  have h117 : c ≠ 117 := by
    rintro rfl
    revert hc
    decide
  rw [parseString.eq_def]
  dsimp only
  rw [if_neg (by decide), if_pos rfl, if_neg h117]
  split
  · rename_i c' he
    rw [Option.some.inj ((escapeValue_eq hc).symm.trans he)]
  · rename_i he
    rw [he] at hc
    cases hc

theorem parseString_unicode (out : Bytes) {a b c d : HexDigit} (hlow : isLow (unit a b c d) = false) {s : Bytes}
    (hs : isHigh (unit a b c d) = true → ¬ [92, 117] <+: s) :
    parseString out (92 :: 117 :: a.1 :: b.1 :: c.1 :: d.1 :: s) = parseString (out ++ appended (unit a b c d)) s := by
  rw [parseString.eq_def]
  dsimp only
  rw [if_neg (by decide), if_pos rfl, if_pos rfl]
  split
  · rename_i h
    rw [parseCodePoint_unit hlow hs] at h
    cases h
  rename_i h
  rw [parseCodePoint_unit hlow hs] at h
  obtain ⟨rfl, rfl⟩ := Prod.mk.inj (Except.ok.inj h)
  rw [appendUtf8_eq out (unit_lt a b c d)]

theorem head_of_prefix : ∀ {s : List Item} {r : Bytes}, [92, 117] <+: s.flatMap Item.text ++ 34 :: r →
    ∃ a b c d, s.head? = some (.unicode a b c d)
  | [], r, h => by
    obtain ⟨t, ht⟩ := h
    exact absurd (List.cons.inj ht).1 (by decide)
  | .plain c :: s, r, h => by
    obtain ⟨t, ht⟩ := h
    exact absurd (List.cons.inj ht).1.symm c.2.2.2
  | .escape c :: s, r, h => by
    obtain ⟨t, ht⟩ := h
    have hc : 117 = c.1 := (List.cons.inj (List.cons.inj ht).2).1
    exact absurd c.2 (by rw [← hc]; decide)
  | .unicode a b c d :: s, r, _ => ⟨a, b, c, d, rfl⟩

/-- **A readable string is read.** -/
theorem parseString_items : ∀ {s : List Item}, Readable s → ∀ (out r : Bytes),
    parseString out (s.flatMap Item.text ++ 34 :: r) = .ok (out ++ read s, r)
  | [], _, out, r => by
    rw [flatMap_nil, nil_append, parseString.eq_def]
    dsimp only
    rw [if_pos rfl, read, append_nil]
  | .plain c :: s, h, out, r => by
    rw [flatMap_cons, append_assoc, Item.text, singleton_append, parseString_plain,
      parseString_items (s := s) h, read_append_plain]
  | .escape c :: s, h, out, r => by
    rw [flatMap_cons, append_assoc]
    refine (parseString_escape out c _).trans ((parseString_items (s := s) h _ r).trans ?_)
    rw [read_append_escape]
  | .unicode a b c d :: s, ⟨hlow, hhigh, h⟩, out, r => by
    rw [flatMap_cons, append_assoc]
    refine (parseString_unicode out hlow (fun hh hp => ?_)).trans ((parseString_items h _ r).trans ?_)
    · obtain ⟨a', b', c', d', hs⟩ := head_of_prefix hp
      exact hhigh hh a' b' c' d' hs
    · rw [read_append_unicode]

/-- **What is read is a readable string.** -/
theorem parseString_sound {out s key r : Bytes} (h : parseString out s = .ok (key, r)) :
    ∃ items : List Item, s = items.flatMap Item.text ++ 34 :: r ∧ Readable items ∧ key = out ++ read items := by
  fun_induction parseString out s with
  | case1 | case3 | case4 | case5 | case8 | case9 => cases h
  | case2 out s =>
    cases h
    exact ⟨[], rfl, trivial, (append_nil _).symm⟩
  | case6 out s cp s₁ h1 out' h2 _ ih =>
    obtain ⟨items, rfl, hr, rfl⟩ := ih h
    obtain ⟨a, b, c, d, rfl, rfl, hlow, hhigh⟩ := parseCodePoint_ok h1
    rw [appendUtf8_eq out (unit_lt a b c d)] at h2
    refine ⟨.unicode a b c d :: items, rfl, ⟨hlow, fun hh a' b' c' d' hs => ?_, hr⟩, ?_⟩
    · cases items with
      | nil => cases hs
      | cons i items =>
        rw [head?_cons] at hs
        cases hs
        refine hhigh hh ?_ (prefix_append [92, 117] _)
        rw [flatMap_cons, append_assoc, length_append]
        exact Nat.le_add_right _ _
    · rw [← Option.some.inj h2, read_append_unicode]
  | case7 out e s he c hc _ ih =>
    obtain ⟨items, rfl, hr, rfl⟩ := ih h
    have hs : (escapeValue e).isSome := by rw [hc]; rfl
    refine ⟨.escape ⟨e, hs⟩ :: items, rfl, hr, ?_⟩
    rw [← read_append_escape, Option.some.inj ((escapeValue_eq hs).symm.trans hc)]
  | case10 out c s h34 h92 h32 ih =>
    obtain ⟨items, rfl, hr, rfl⟩ := ih h
    refine ⟨.plain ⟨c, UInt8.not_lt.1 h32, h34, h92⟩ :: items, rfl, hr, ?_⟩
    rw [← read_append_plain]

/-! ## Numbers -/

def CodeExp (t : Bytes) : Prop :=
  t = [] ∨ ∃ e sg ds, t = e :: (sg ++ ds) ∧ (e = 101 ∨ e = 69) ∧ (sg = [] ∨ sg = [45] ∨ sg = [43]) ∧
    ∀ c ∈ ds, Decimals.isDigit c

def CodeFrac (t ds : Bytes) : Prop := (t = [] ∧ ds = [] ∨ t = 46 :: ds) ∧ ∀ c ∈ ds, Decimals.isDigit c

/-- What the reader takes for a number: digits may be left out where one of them is there. -/
def CodeNumber (t : Bytes) : Prop :=
  ∃ sg int frac ds exp, t = sg ++ (int ++ (frac ++ exp)) ∧ (sg = [] ∨ sg = [45] ∨ sg = [43]) ∧
    (∀ c ∈ int, Decimals.isDigit c) ∧ CodeFrac frac ds ∧ CodeExp exp ∧ (int ≠ [] ∨ ds ≠ [])

theorem not_isDigit_of_not_isNumeric {c : UInt8} (h : Json.isNumeric c = false) : Decimals.isDigit c = false := by
  rw [← Bool.not_eq_true] at h ⊢
  exact fun hd => h (Json.isNumeric_iff.2 (Or.inl hd))

theorem ne_of_not_isNumeric {c c' : UInt8} (h : Json.isNumeric c = false) (h' : Json.isNumeric c' = true) : c ≠ c' := by
  rintro rfl
  rw [h] at h'
  cases h'

theorem sign_unsigned {s : Bytes} (h : ∀ c ∈ s.head?, c ≠ 45 ∧ c ≠ 43) : sign s = (false, s) := by
  unfold sign
  split
  · exact absurd rfl (h 45 rfl).1
  · exact absurd rfl (h 43 rfl).2
  · rfl

theorem digit_unsigned {c : UInt8} (h : Decimals.isDigit c) : c ≠ 45 ∧ c ≠ 43 := by
  constructor <;> (rintro rfl; exact absurd h (by decide))

section
variable {rest : Bytes} (hrest : ∀ c ∈ rest.head?, Json.isNumeric c = false)
include hrest

theorem sign_rest (ds : Bytes) (hd : ∀ c ∈ ds, Decimals.isDigit c) : (sign (ds ++ rest)).2 = ds ++ rest := by
  rw [sign_unsigned]
  intro c hc
  cases ds with
  | nil => exact ⟨ne_of_not_isNumeric (hrest c hc) rfl, ne_of_not_isNumeric (hrest c hc) rfl⟩
  | cons d ds =>
    rw [← Option.some.inj hc]
    exact digit_unsigned (hd d mem_cons_self)

theorem skipExponent_append {exp : Bytes} (h : CodeExp exp) : skipExponent (exp ++ rest) = rest := by
  rcases h with rfl | ⟨e, sg, ds, rfl, he, hsg, hd⟩
  · rw [nil_append]
    cases rest with
    | nil => rfl
    | cons c rest =>
      unfold skipExponent
      dsimp only
      rw [if_neg]
      rintro (rfl | rfl) <;> exact absurd (hrest _ rfl) (by decide)
  · have hsign : (sign (sg ++ (ds ++ rest))).2 = ds ++ rest := by
      rcases hsg with rfl | rfl | rfl
      · exact sign_rest hrest ds hd
      · rfl
      · rfl
    rw [cons_append, append_assoc]
    unfold skipExponent
    dsimp only
    rw [if_pos he, hsign]
    exact (Scan.span_append hd (fun c hc => not_isDigit_of_not_isNumeric (hrest c hc))).2

theorem exp_head {exp : Bytes} (h : CodeExp exp) : ∀ c ∈ (exp ++ rest).head?, Decimals.isDigit c = false ∧ c ≠ 46 := by
  rcases h with rfl | ⟨e, sg, ds, rfl, he, -, -⟩
  · exact fun c hc => ⟨not_isDigit_of_not_isNumeric (hrest c hc), ne_of_not_isNumeric (hrest c hc) rfl⟩
  · intro c hc
    rw [← Option.some.inj hc]
    rcases he with rfl | rfl <;> exact ⟨rfl, by decide⟩

theorem fraction_append {frac ds exp : Bytes} (hf : CodeFrac frac ds) (he : CodeExp exp) :
    fraction (frac ++ (exp ++ rest)) = (ds, exp ++ rest) := by
  have hh := exp_head hrest he
  rcases hf with ⟨⟨rfl, rfl⟩ | rfl, hd⟩
  · rw [nil_append]
    unfold fraction
    split
    · rename_i s hs
      exact absurd rfl (hh 46 (by rw [hs]; rfl)).2
    · rfl
  · obtain ⟨h1, h2⟩ := Scan.span_append hd (fun c hc => (hh c hc).1)
    rw [cons_append, fraction, h1, h2]

/-- **A number is read**, when it is not too long. -/
theorem parseNumber_append {t : Bytes} (h : CodeNumber t) (hlen : t.length < 64) :
    parseNumber (t ++ rest) = .ok (.ofNumber (strtod t), rest) := by
  obtain ⟨sg, int, frac, ds, exp, rfl, hsg, hi, hf, he, hne⟩ := h
  have hfrac := fraction_append hrest hf he
  have hexp := skipExponent_append hrest he
  have hhead : ∀ c ∈ (frac ++ (exp ++ rest)).head?, Decimals.isDigit c = false := by
    rcases hf with ⟨⟨rfl, rfl⟩ | rfl, -⟩
    · exact fun c hc => (exp_head hrest he c hc).1
    · intro c hc
      rw [← Option.some.inj hc]
      rfl
  obtain ⟨hint, hdrop⟩ := Scan.span_append hi hhead
  have hsign : (sign (sg ++ (int ++ (frac ++ (exp ++ rest))))).2 = int ++ (frac ++ (exp ++ rest)) := by
    rcases hsg with rfl | rfl | rfl
    · rw [nil_append, sign_unsigned]
      intro c hc
      cases int with
      | nil =>
        rcases hf with ⟨⟨-, rfl⟩ | rfl, -⟩
        · exact absurd hne (by simp)
        · rw [← Option.some.inj hc]
          decide
      | cons d int =>
        rw [← Option.some.inj hc]
        exact digit_unsigned (hi d mem_cons_self)
    · rfl
    · rfl
  have htotal : (sg ++ (int ++ (frac ++ (exp ++ rest)))).length - rest.length = (sg ++ (int ++ (frac ++ exp))).length := by
    simp only [length_append]
    omega
  simp only [append_assoc]
  unfold parseNumber
  dsimp only
  rw [hsign, hdrop, hint, hfrac]
  dsimp only
  rw [hexp, htotal, if_neg (by rintro ⟨h1, h2⟩; exact hne.elim (· h1) (· h2)), if_neg (Nat.not_le.2 hlen),
    show sg ++ (int ++ (frac ++ (exp ++ rest))) = sg ++ (int ++ (frac ++ exp)) ++ rest by simp only [append_assoc],
    take_left]
end

theorem sign_split (s : Bytes) : ∃ sg, s = sg ++ (sign s).2 ∧ (sg = [] ∨ sg = [45] ∨ sg = [43]) := by
  unfold sign
  split
  · exact ⟨[45], rfl, Or.inr (Or.inl rfl)⟩
  · exact ⟨[43], rfl, Or.inr (Or.inr rfl)⟩
  · exact ⟨[], rfl, Or.inl rfl⟩

theorem isDigit_takeWhile (s : Bytes) : ∀ c ∈ s.takeWhile Decimals.isDigit, Decimals.isDigit c :=
  fun _ hc => mem_takeWhile_imp hc

theorem fraction_split (s : Bytes) : ∃ frac, s = frac ++ (fraction s).2 ∧ CodeFrac frac (fraction s).1 := by
  unfold fraction
  split
  · rename_i s
    exact ⟨46 :: s.takeWhile Decimals.isDigit, congrArg (List.cons 46) takeWhile_append_dropWhile.symm, Or.inr rfl,
      isDigit_takeWhile s⟩
  · exact ⟨[], rfl, Or.inl ⟨rfl, rfl⟩, fun _ hc => nomatch hc⟩

theorem skipExponent_split : ∀ s : Bytes, ∃ exp, s = exp ++ skipExponent s ∧ CodeExp exp
  | []     => ⟨[], rfl, Or.inl rfl⟩
  | c :: s => by
    unfold skipExponent
    dsimp only
    split
    · rename_i hc
      obtain ⟨sg, hs, hsg⟩ := sign_split s
      refine ⟨c :: (sg ++ (sign s).2.takeWhile Decimals.isDigit), ?_,
        Or.inr ⟨c, sg, _, rfl, hc, hsg, isDigit_takeWhile _⟩⟩
      rw [cons_append, append_assoc, takeWhile_append_dropWhile, ← hs]
    · exact ⟨[], rfl, Or.inl rfl⟩

theorem take_front {s t r : Bytes} (h : s = t ++ r) : s.take (s.length - r.length) = t := by
  rw [h, length_append, Nat.add_sub_cancel, take_left]

/-- **What is read is a number**, and not too long. -/
theorem parseNumber_sound {s r : Bytes} {v : JVal} (h : parseNumber s = .ok (v, r)) :
    ∃ t, s = t ++ r ∧ CodeNumber t ∧ t.length < 64 ∧ v = .ofNumber (strtod t) := by
  obtain ⟨sg, hs, hsg⟩ := sign_split s
  obtain ⟨frac, hfrac, hf⟩ := fraction_split ((sign s).2.dropWhile Decimals.isDigit)
  obtain ⟨exp, hexp, he⟩ := skipExponent_split (fraction ((sign s).2.dropWhile Decimals.isDigit)).2
  have hall : s = sg ++ ((sign s).2.takeWhile Decimals.isDigit ++ (frac ++ exp)) ++
      skipExponent (fraction ((sign s).2.dropWhile Decimals.isDigit)).2 := by
    simp only [append_assoc]
    rw [← hexp, ← hfrac, takeWhile_append_dropWhile, ← hs]
  unfold parseNumber at h
  dsimp only at h
  split at h
  · cases h
  rename_i hne
  split at h
  · cases h
  rename_i hlen
  obtain ⟨rfl, rfl⟩ := Prod.mk.inj (Except.ok.inj h)
  have htake := take_front hall
  have hlen' := congrArg List.length hall
  rw [length_append] at hlen'
  refine ⟨_, hall, ⟨sg, _, frac, _, exp, rfl, hsg, isDigit_takeWhile _, hf, he, ?_⟩, by omega, by rw [htake]⟩
  by_contra hc
  rw [not_or, not_not, not_not] at hc
  exact hne hc

theorem codeNumber_numeric {t : Bytes} (h : CodeNumber t) : t ≠ [] ∧ ∀ c ∈ t, Json.isNumeric c := by
  obtain ⟨sg, int, frac, ds, exp, rfl, hsg, hi, hf, he, hne⟩ := h
  have hdigits : ∀ {ds : Bytes}, (∀ c ∈ ds, Decimals.isDigit c) → ∀ c ∈ ds, Json.isNumeric c :=
    fun hd c hc => Json.isNumeric_iff.2 (Or.inl (hd c hc))
  have hsign : ∀ {sg : Bytes}, (sg = [] ∨ sg = [45] ∨ sg = [43]) → ∀ c ∈ sg, Json.isNumeric c := by
    rintro _ (rfl | rfl | rfl) <;> decide +kernel
  constructor
  · rintro hnil
    simp only [append_eq_nil_iff] at hnil
    obtain ⟨-, rfl, rfl, -⟩ := hnil
    rcases hf.1 with ⟨-, rfl⟩ | hf
    · simp at hne
    · cases hf
  · intro c hc
    rcases mem_append.1 hc with hc | hc
    · exact hsign hsg c hc
    rcases mem_append.1 hc with hc | hc
    · exact hdigits hi c hc
    rcases mem_append.1 hc with hc | hc
    · rcases hf with ⟨⟨rfl, -⟩ | rfl, hd⟩
      · cases hc
      · rcases mem_cons.1 hc with rfl | hc
        · rfl
        · exact hdigits hd c hc
    rcases he with rfl | ⟨e, sg', ds', rfl, he, hsg', hd⟩
    · cases hc
    rcases mem_cons.1 hc with rfl | hc
    · rcases he with rfl | rfl <;> rfl
    · rcases mem_append.1 hc with hc | hc
      · exact hsign hsg' c hc
      · exact hdigits hd c hc

theorem codeNumber_of_rfc {t : Bytes} (h : Json.RfcNumber t) : CodeNumber t := by
  obtain ⟨minus, int, frac, exp, rfl, hm, hi, hf, he⟩ := h
  have hint : int ≠ [] ∧ ∀ c ∈ int, Decimals.isDigit c := by
    rcases hi with rfl | ⟨d, ds, rfl, hd, -, hds⟩
    · exact ⟨by decide, by decide +kernel⟩
    refine ⟨cons_ne_nil _ _, fun c hc => ?_⟩
    rcases mem_cons.1 hc with rfl | hc
    · exact hd
    · exact hds c hc
  have hexp : CodeExp exp := by
    rcases he with rfl | ⟨e, sg, ds, rfl, he, hsg, -, hd⟩
    · exact Or.inl rfl
    · exact Or.inr ⟨e, sg, ds, rfl, he, hsg, hd⟩
  have hsg : minus = [] ∨ minus = [45] ∨ minus = [43] := hm.imp id Or.inl
  rcases hf with rfl | ⟨ds, rfl, -, hd⟩
  · exact ⟨minus, int, [], [], exp, rfl, hsg, hint.2, ⟨Or.inl ⟨rfl, rfl⟩, fun _ hc => nomatch hc⟩, hexp, Or.inl hint.1⟩
  · exact ⟨minus, int, _, ds, exp, rfl, hsg, hint.2, ⟨Or.inr rfl, hd⟩, hexp, Or.inl hint.1⟩

end Clangd
end Prose
