import Prose.WriterRtfReader
/-!
# WriterRtfTokens — what the reader makes of a token

The body of a file is tokens: an escaped byte, a control word with its parameter and its space, a paragraph end.
`Token.render` is how the writer puts one down, `RtfReader.act` what it does to the reader; `reads_tokens` says that the
reader, standing in front of rendered tokens, acts on them one by one.
-/
namespace Prose
namespace Writer

open Scan List

/-! ## The loop eats its input -/

/-- What `SkipGroup` leaves is the end of what there was; and so for whatever else moves on. -/
theorem suffix_skipGroup (depth : Nat) (s : List Byte) : skipGroup depth s <:+ s := by
  have hmore {x t : List Byte} {c : Byte} (h : x <:+ t) : x <:+ c :: t := h.trans (suffix_cons c t)
  fun_induction skipGroup depth s with
  | case1 => exact suffix_rfl
  | case2 _ _ ih => exact hmore ih
  | case3 => exact suffix_cons _ _
  | case4 _ _ _ _ ih => exact hmore ih
  | case5 => exact nil_suffix
  | case6 => exact hmore (hmore (hmore (hmore ‹_›)))
  | case7 => exact nil_suffix
  | case8 => exact hmore (hmore ‹_›)
  | case9 => exact hmore ‹_›
  | case10 => exact hmore ‹_›

theorem suffix_readParam (s : List Byte) : (readParam s).2 <:+ s := by
  unfold readParam
  split
  · exact suffix_rfl
  split_ifs
  · exact dropWhile_suffix _
  · exact (dropWhile_suffix _).trans (suffix_cons _ _)
  · exact suffix_rfl

theorem suffix_skipSpace (s : List Byte) : skipSpace s <:+ s := by
  unfold skipSpace
  split
  · exact suffix_rfl
  · split_ifs
    · exact suffix_cons _ _
    · exact suffix_rfl

theorem suffix_skipSubstitute (s : List Byte) : skipSubstitute s <:+ s := by
  unfold skipSubstitute
  split
  · exact suffix_rfl
  split_ifs
  · exact suffix_cons _ _
  · exact drop_suffix _ _
  · exact suffix_rfl

theorem suffix_controlWord (r : RtfReader) (starred : Bool) (word : List Byte) (param : Option Int) (s : List Byte) :
    (r.controlWord starred word param s).2 <:+ s := by
  unfold RtfReader.controlWord
  split_ifs
  · exact suffix_skipGroup 0 s
  · exact suffix_rfl
  · exact suffix_rfl
  · exact suffix_rfl
  · exact suffix_skipGroup 0 s
  · exact suffix_rfl
  · exact suffix_rfl
  · split
    · exact suffix_skipSubstitute s
    · exact suffix_rfl
  · exact suffix_rfl

theorem suffix_readWord (r : RtfReader) (starred : Bool) (s : List Byte) : (r.readWord starred s).2 <:+ s :=
  ((suffix_controlWord ..).trans (suffix_skipSpace _)).trans ((suffix_readParam _).trans (dropWhile_suffix _))

theorem suffix_control (r : RtfReader) (s : List Byte) : (r.control s).2 <:+ s := by
  unfold RtfReader.control
  split
  · exact suffix_rfl
  split_ifs
  · exact suffix_cons _ _
  · rename_i s _ _
    refine List.IsSuffix.trans ?_ (suffix_cons _ _)
    rcases s with _ | ⟨c, _ | ⟨c', s⟩⟩
    · exact suffix_rfl
    · exact nil_suffix
    · exact (suffix_cons _ _).trans (suffix_cons _ _)
  · exact nil_suffix
  · exact (suffix_readWord ..).trans (suffix_cons _ _)
  · exact suffix_readWord ..

theorem suffix_step (r : RtfReader) (c : Byte) (s : List Byte) : (r.step (c :: s)).2 <:+ s := by
  unfold RtfReader.step
  dsimp only
  split_ifs
  · exact suffix_rfl
  · exact suffix_rfl
  · exact suffix_control r s
  · exact suffix_rfl
  · exact suffix_rfl
  · exact suffix_rfl

theorem eats_step : Eats RtfReader.step := by
  rintro r (_ | ⟨c, s⟩) h
  · exact absurd rfl h
  · exact Nat.lt_succ_of_le (suffix_step r c s).length_le

/-! ## Numbers -/

theorem isDigit_ascii {c : Char} (h : c.isDigit) : isDigit (ascii c) ∧ (ascii c).val.toNat = c.toNat := by
  have hr : 48 ≤ c.toNat ∧ c.toNat ≤ 57 := by
    rw [Char.isDigit, Bool.and_eq_true, decide_eq_true_eq, decide_eq_true_eq] at h
    exact h
  have hn : (UInt8.ofNat c.toNat).toNat = c.toNat := by
    rw [UInt8.toNat_ofNat']
    omega
  have hval : (ascii c).val = UInt8.ofNat c.toNat := by
    unfold ascii
    rw [dif_pos]
    intro h0
    rw [h0] at hn
    exact absurd hn (by simp; omega)
  unfold isDigit
  rw [hval, Bool.and_eq_true, decide_eq_true_eq, decide_eq_true_eq, UInt8.le_iff_toNat_le, UInt8.le_iff_toNat_le, hn]
  exact ⟨hr, rfl⟩

theorem int32_eq {n : Int} (h : -2147483648 ≤ n) (h' : n < 2147483648) : int32 n = n :=
  Int.bmod_eq_of_le (by omega) (by omega)

theorem int32_mul_add (a b c : Int) : int32 (int32 a * b + c) = int32 (a * b + c) := by
  unfold int32
  rw [← Int.bmod_add_bmod, Int.bmod_mul_bmod, Int.bmod_add_bmod]

theorem foldl_digits : ∀ {l : List Char}, (∀ c ∈ l, c.isDigit) → ∀ n : Nat,
    (l.map ascii).foldl (fun (param : Int) c => int32 (param * 10 + (c.val.toNat - 48))) (int32 n) =
      int32 (Nat.ofDigitChars 10 l n)
  | [], _, n => by rw [map_nil, foldl_nil, Nat.ofDigitChars_nil]
  | c :: l, h, n => by
    obtain ⟨hd, hc⟩ := isDigit_ascii (h c mem_cons_self)
    rw [map_cons, foldl_cons, Nat.ofDigitChars_cons,
      ← foldl_digits (fun c hc => h c (mem_cons_of_mem _ hc)), hc]
    have h48 : 48 ≤ c.toNat := by
      have := (isDigit_ascii (h c mem_cons_self)).1
      unfold isDigit at this
      rw [Bool.and_eq_true, decide_eq_true_eq, UInt8.le_iff_toNat_le, hc] at this
      exact this.1
    have hcast : ((10 * n + (c.toNat - '0'.toNat) : Nat) : Int) = n * 10 + ((c.toNat : Int) - 48) := by
      have h0 : '0'.toNat = 48 := rfl
      omega
    rw [hcast, int32_mul_add]

theorem digits_toString (n : Nat) : digits (chars (toString n)) = int32 n := by
  have h := foldl_digits (l := Nat.toDigits 10 n) (fun c hc => Nat.isDigit_of_mem_toDigits (by decide) (by decide) hc) 0
  rw [Nat.ofDigitChars_ten_toDigits] at h
  unfold digits chars
  rw [show (toString n).toList = Nat.toDigits 10 n from Nat.toList_repr]
  exact h

/-! ## Control words -/

theorem isDigit_toString {n : Nat} : ∀ c ∈ chars (toString n), isDigit c := by
  unfold chars
  rw [show (toString n).toList = Nat.toDigits 10 n from Nat.toList_repr]
  intro c hc
  obtain ⟨d, hd, rfl⟩ := mem_map.1 hc
  exact (isDigit_ascii (Nat.isDigit_of_mem_toDigits (by decide) (by decide) hd)).1

theorem exists_toString (n : Nat) : ∃ c s, chars (toString n) = c :: s ∧ isDigit c := by
  cases h : chars (toString n) with
  | nil =>
    unfold chars at h
    rw [show (toString n).toList = Nat.toDigits 10 n from Nat.toList_repr, map_eq_nil_iff] at h
    exact absurd h Nat.toDigits_ne_nil
  | cons c s => exact ⟨c, s, rfl, isDigit_toString c (h ▸ mem_cons_self)⟩

theorem int32_neg (n : Int) : int32 (-int32 n) = int32 (-n) := by
  have h := int32_mul_add n (-1) 0
  rwa [Int.add_zero, Int.add_zero, Int.mul_neg_one, Int.mul_neg_one] at h

/-- **The reader reads the number the writer wrote**, up to the width of `int32`. -/
theorem readParam_decimal (n : Int) {x : List Byte} (hx : ∀ c ∈ x.head?, isDigit c = false) :
    readParam (decimal n ++ x) = (some (int32 n), x) := by
  obtain ⟨htake, hdrop⟩ := span_append (isDigit_toString (n := n.natAbs)) hx
  unfold decimal
  by_cases hn : n < 0
  · have habs : (n.natAbs : Int) = -n := by omega
    rw [if_pos hn, show chars "-" = [ascii '-'] from rfl, append_assoc, singleton_append, readParam,
      if_neg (by decide), if_pos rfl, htake, hdrop, digits_toString, int32_neg, habs, Int.neg_neg]
  have habs : (n.natAbs : Int) = n := by omega
  obtain ⟨c, s, hs, hc⟩ := exists_toString n.natAbs
  rw [if_neg hn, nil_append]
  have hcons : chars (toString n.natAbs) ++ x = c :: (s ++ x) := by rw [hs, cons_append]
  rw [hcons, readParam, if_pos hc, ← hcons, htake, hdrop, digits_toString, habs]

def paramText : Option Int → List Byte
  | none   => []
  | some n => decimal n

def Delimits (x : List Byte) : Prop := ∀ c ∈ x.head?, isAlpha c = false ∧ isDigit c = false ∧ c ≠ ascii '-'

theorem delimits_cons {c : Byte} (x : List Byte) (h : isAlpha c = false ∧ isDigit c = false ∧ c ≠ ascii '-') :
    Delimits (c :: x) := by
  intro c' hc'
  exact Option.some.inj hc' ▸ h

theorem not_isAlpha_of_isDigit {c : Byte} (h : isDigit c) : isAlpha c = false := by
  unfold isDigit at h
  unfold isAlpha
  simp only [Bool.and_eq_true, decide_eq_true_eq, UInt8.le_iff_toNat_le] at h
  simp only [Bool.or_eq_false_iff, Bool.and_eq_false_iff, decide_eq_false_iff_not, UInt8.le_iff_toNat_le]
  obtain ⟨-, h57⟩ := h
  have h57' : c.val.toNat ≤ 57 := h57
  exact ⟨Or.inl (by simp; omega), Or.inl (by simp; omega)⟩

theorem head_decimal (n : Int) (x : List Byte) : ∀ c ∈ (decimal n ++ x).head?, isAlpha c = false := by
  obtain ⟨c, s, hs, hc⟩ := exists_toString n.natAbs
  unfold decimal
  rw [hs]
  split_ifs
  · intro c' hc'
    rw [← Option.some.inj hc']
    decide
  · intro c' hc'
    rw [← Option.some.inj hc']
    exact not_isAlpha_of_isDigit hc

theorem readWord_word (r : RtfReader) (starred : Bool) {w : List Byte} (hw : ∀ c ∈ w, isAlpha c) (param : Option Int)
    {x : List Byte} (hx : Delimits x) :
    r.readWord starred (w ++ (paramText param ++ x)) = r.controlWord starred w (param.map int32) (skipSpace x) := by
  cases param with
  | none =>
    obtain ⟨htake, hdrop⟩ := span_append hw (fun c hc => (hx c hc).1)
    have hparam : readParam x = (none, x) := by
      cases x with
      | nil => rfl
      | cons c x =>
        obtain ⟨-, hd, hm⟩ := hx c rfl
        rw [readParam, if_neg (by rw [hd]; exact Bool.false_ne_true), if_neg hm]
    unfold RtfReader.readWord
    rw [paramText, nil_append, htake, hdrop, hparam]
    rfl
  | some n =>
    obtain ⟨htake, hdrop⟩ := span_append hw (head_decimal n x)
    unfold RtfReader.readWord
    rw [paramText, htake, hdrop, readParam_decimal n (fun c hc => (hx c hc).2.1)]
    rfl

theorem ne_of_isAlpha {c c' : Byte} (h : isAlpha c) (h' : isAlpha c' = false) : c ≠ c' := by
  rintro rfl
  rw [h] at h'
  exact Bool.noConfusion h'

/-- **A control word** in front of the loop. -/
theorem step_word (r : RtfReader) {w : List Byte} (hne : w ≠ []) (hw : ∀ c ∈ w, isAlpha c) (param : Option Int)
    {x : List Byte} (hx : Delimits x) :
    r.step (ascii '\\' :: (w ++ (paramText param ++ x))) = r.controlWord false w (param.map int32) (skipSpace x) := by
  rw [← readWord_word r false hw param hx]
  obtain ⟨c, w, rfl⟩ := exists_cons_of_ne_nil hne
  have hc := hw c mem_cons_self
  have h1 : c ≠ ascii '\\' := ne_of_isAlpha hc (by decide)
  have h2 : c ≠ ascii '\x7b' := ne_of_isAlpha hc (by decide)
  have h3 : c ≠ ascii '\x7d' := ne_of_isAlpha hc (by decide)
  have h4 : c ≠ ascii '\'' := ne_of_isAlpha hc (by decide)
  have h5 : c ≠ ascii '*' := ne_of_isAlpha hc (by decide)
  rw [RtfReader.step, if_neg (by decide), if_neg (by decide), if_pos rfl, cons_append, RtfReader.control,
    if_neg (by rintro (h | h | h) <;> contradiction), if_neg h4, if_neg h5]

/-! ## Tokens -/

inductive Token
  | byte (c : Byte)
  | word (w : List Byte) (param : Option Int)
  | par

def readByte (c : Byte) : List Byte :=
  if c = ascii '\n' ∨ c = ascii '\r' then [] else if c = kCellSep then [ascii '\t'] else [c]

def Token.render : Token → List Byte
  | .byte c => escape c
  | .word w param => ascii '\\' :: (w ++ (paramText param ++ chars " "))
  | .par => chars "\\par\n"

def RtfReader.act (r : RtfReader) : Token → RtfReader
  | .byte c => r.emit ((readByte c).map Subtype.val)
  | .word w param => { r with fState := r.fState.word w (param.map int32) }
  | .par => r.endParagraph

def isFormatWord (w : List Byte) : Bool :=
  w ≠ [] && w.all isAlpha && !isDestinationWord w &&
    !(w ∈ [chars "par", chars "line", chars "tab", chars "u"])

def Token.Formats : Token → Prop
  | .word w _ => isFormatWord w
  | _ => True

def RtfReader.InBody (r : RtfReader) : Prop := r.inGroup = true ∧ r.inTable = false

theorem controlWord_format {r : RtfReader} (ht : r.inTable = false) {w : List Byte} (hw : isFormatWord w)
    (param : Option Int) (s : List Byte) :
    r.controlWord false w param s = ({ r with fState := r.fState.word w param }, s) := by
  unfold isFormatWord at hw
  simp only [Bool.and_eq_true, Bool.not_eq_true', decide_eq_false_iff_not, mem_cons, not_or] at hw
  obtain ⟨⟨-, hd⟩, hpar, hline, htab, hu, -⟩ := hw
  have hfont : w ≠ chars "fonttbl" := by
    rintro rfl
    exact absurd hd (by decide)
  have hcolor : w ≠ chars "colortbl" := by
    rintro rfl
    exact absurd hd (by decide)
  unfold RtfReader.controlWord
  rw [if_neg Bool.false_ne_true, if_neg hfont, if_neg hcolor, if_neg (by rw [ht]; exact Bool.false_ne_true),
    if_neg (by rw [hd]; exact Bool.false_ne_true), if_neg (by rintro (h | h) <;> contradiction), if_neg htab, if_neg hu]

theorem step_char {r : RtfReader} {c : Byte} (s : List Byte)
    (h : c ≠ ascii '\x7b' ∧ c ≠ ascii '\x7d' ∧ c ≠ ascii '\\') :
    r.step (c :: s) = if c = ascii '\n' ∨ c = ascii '\r' then (r, s)
      else if r.inTable then (r.charInTable c, s) else (r.emit [c.val], s) := by
  obtain ⟨h1, h2, h3⟩ := h
  rw [RtfReader.step, if_neg h1, if_neg h2, if_neg h3]

theorem step_symbol {c : Byte} (h : c = ascii '\\' ∨ c = ascii '\x7b' ∨ c = ascii '\x7d') (r : RtfReader)
    (s : List Byte) : r.step (ascii '\\' :: c :: s) = (r.emit [c.val], s) := by
  rw [RtfReader.step, if_neg (by decide), if_neg (by decide), if_pos rfl, RtfReader.control, if_pos h]

theorem hexValue_hexDigit : ∀ n < 16, hexValue (hexDigit n) = n := by decide

theorem step_hex (r : RtfReader) (b : UInt8) (s : List Byte) :
    r.step (chars "\\'" ++ [hexDigit (b.toNat / 16), hexDigit (b.toNat % 16)] ++ s) = (r.emit [b], s) := by
  have hb : b.toNat < 256 := b.toNat_lt
  have hval : (hex2 (hexDigit (b.toNat / 16) :: hexDigit (b.toNat % 16) :: s)).1 = b := by
    have hsum : b.toNat / 16 * 16 + b.toNat % 16 = b.toNat := by omega
    rw [hex2, hexValue_hexDigit _ (by omega), hexValue_hexDigit _ (by omega), hsum, UInt8.ofNat_toNat]
  rw [show chars "\\'" = [ascii '\\', ascii '\''] from rfl, append_assoc, cons_append, singleton_append,
    RtfReader.step, if_neg (by decide), if_neg (by decide), if_pos rfl, RtfReader.control, if_neg (by decide),
    if_pos rfl]
  exact congrArg (fun b => (r.emit [b], s)) hval

theorem controlWord_tab {r : RtfReader} (ht : r.inTable = false) (s : List Byte) :
    r.controlWord false (chars "tab") none s = (r.emit [9], s) := by
  unfold RtfReader.controlWord
  rw [if_neg Bool.false_ne_true, if_neg (by decide), if_neg (by decide), if_neg (by rw [ht]; exact Bool.false_ne_true),
    if_neg (by decide), if_neg (by decide), if_pos rfl]

theorem controlWord_par {r : RtfReader} (ht : r.inTable = false) (s : List Byte) :
    r.controlWord false (chars "par") none s = (r.endParagraph, s) := by
  unfold RtfReader.controlWord
  rw [if_neg Bool.false_ne_true, if_neg (by decide), if_neg (by decide), if_neg (by rw [ht]; exact Bool.false_ne_true),
    if_neg (by decide), if_pos (Or.inl rfl)]

theorem step_byte {r : RtfReader} (hr : r.InBody) (c : Byte) (s : List Byte) :
    r.step (escape c ++ s) = (r.emit ((readByte c).map Subtype.val), s) := by
  unfold escape
  split_ifs with h1 h2 h3 h4 h5
  · subst h1
    exact step_symbol (Or.inl rfl) r s
  · subst h2
    exact step_symbol (Or.inr (Or.inl rfl)) r s
  · subst h3
    exact step_symbol (Or.inr (Or.inr rfl)) r s
  · subst h4
    have := step_word r (w := chars "tab") (by decide) (all_eq_true.1 rfl) none
      (delimits_cons (c := ascii ' ') s (by decide))
    rw [show chars "\\tab " ++ s = ascii '\\' :: (chars "tab" ++ (paramText none ++ ascii ' ' :: s)) from rfl, this,
      Option.map_none, show skipSpace (ascii ' ' :: s) = s from rfl, controlWord_tab hr.2]
    rfl
  · rw [singleton_append, step_char s ⟨h2, h3, h1⟩, readByte, if_neg h4]
    by_cases hn : c = ascii '\n' ∨ c = ascii '\r'
    · rw [if_pos hn, if_pos hn]
      rfl
    · rw [if_neg hn, if_neg hn, if_neg (by rw [hr.2]; exact Bool.false_ne_true)]
      rfl
  · rw [step_hex]
    have hn : ¬ (c = ascii '\n' ∨ c = ascii '\r') := by
      rintro (rfl | rfl) <;> exact h5 (by decide)
    unfold readByte
    rw [if_neg hn, if_neg h4]
    rfl

theorem escape_ne_nil (c : Byte) : escape c ≠ [] := by
  unfold escape
  split_ifs <;> simp [chars]

theorem inBody_endParagraph {r : RtfReader} (hr : r.InBody) : r.endParagraph.InBody := by
  unfold RtfReader.endParagraph RtfReader.applyParaFormat
  dsimp only
  split_ifs <;> exact hr

/-- **The reader acts on a token** it stands in front of. -/
theorem reads_token {r : RtfReader} (hr : r.InBody) {t : Token} (ht : t.Formats) :
    Reads RtfReader.inGroup RtfReader.step r t.render (r.act t) := by
  cases t with
  | byte c => exact Reads.of_step eats_step (escape_ne_nil c) hr.1 (step_byte hr c)
  | word w param =>
    have hw : isFormatWord w := ht
    refine Reads.of_step eats_step (cons_ne_nil _ _) hr.1 (fun rest => ?_)
    have hw' := hw
    unfold isFormatWord at hw'
    simp only [Bool.and_eq_true, decide_eq_true_eq, all_eq_true] at hw'
    obtain ⟨⟨⟨hne, halpha⟩, -⟩, -⟩ := hw'
    have hstep := step_word r hne halpha param (delimits_cons (c := ascii ' ') rest (by decide))
    unfold Token.render RtfReader.act
    rw [cons_append, append_assoc, append_assoc, show chars " " ++ rest = ascii ' ' :: rest from rfl, hstep,
      show skipSpace (ascii ' ' :: rest) = rest from rfl, controlWord_format hr.2 hw]
  | par =>
    intro rest
    have hstep := step_word r (w := chars "par") (by decide) (all_eq_true.1 rfl) none
      (delimits_cons (c := newline) rest (by decide))
    rw [show Token.par.render ++ rest = ascii '\\' :: (chars "par" ++ (paramText none ++ newline :: rest)) from rfl,
      run_step eats_step (cons_ne_nil _ _) hr.1, hstep, Option.map_none,
      show skipSpace (newline :: rest) = newline :: rest from rfl, controlWord_par hr.2,
      run_step eats_step (cons_ne_nil _ _) (inBody_endParagraph hr).1, step_char rest (by decide),
      if_pos (show newline = ascii '\n' ∨ newline = ascii '\r' from Or.inl rfl)]
    rfl

theorem inBody_act {r : RtfReader} (hr : r.InBody) (t : Token) : (r.act t).InBody := by
  cases t with
  | byte c => exact hr
  | word w param => exact hr
  | par => exact inBody_endParagraph hr

/-- **The reader acts on tokens one by one.** -/
theorem reads_tokens : ∀ {r : RtfReader} {ts : List Token}, r.InBody → (∀ t ∈ ts, t.Formats) →
    Reads RtfReader.inGroup RtfReader.step r (ts.flatMap Token.render) (ts.foldl RtfReader.act r)
  | r, [], _, _ => Reads.nil r
  | r, t :: ts, hr, h => by
    rw [flatMap_cons, foldl_cons]
    exact (reads_token hr (h t mem_cons_self)).append
      (reads_tokens (inBody_act hr t) (fun t ht => h t (mem_cons_of_mem _ ht)))

end Writer
end Prose
