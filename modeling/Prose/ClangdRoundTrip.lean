import Prose.ClangdJsonText
/-!
# ClangdRoundTrip — what is written is read back

`ToJson` and `JParse` behind it.
-/
namespace Prose
namespace Clangd

open List

open Json (Item Tree Part Blank HexDigit Document quoted unit)

/-! ## Integers -/

theorem roundEven_int (z : Int) : roundEven z = z := by
  unfold roundEven
  dsimp only
  rw [Int.floor_intCast, sub_self, if_pos (by norm_num)]

/-- **An integer below 2^53 is a `double`.** -/
theorem toDouble_int {n : Int} (h : |n| < 2 ^ 53) : toDouble n = .finite n := by
  unfold toDouble
  by_cases h0 : (n : Rat) = 0
  · rw [if_pos h0, h0]
  rw [if_neg h0]
  have hpos : (0 : Rat) < |(n : Rat)| := abs_pos.2 h0
  have hlt : |(n : Rat)| < (2 : Rat) ^ (53 : Int) := by exact_mod_cast h
  have hlog : Int.log 2 |(n : Rat)| < 53 := (Int.lt_zpow_iff_log_lt (by decide) hpos).1 (by exact_mod_cast hlt)
  obtain ⟨k, hk⟩ : ∃ k : Nat, max (Int.log 2 |(n : Rat)| - 52) (-1074) = -k := ⟨(-max (Int.log 2 |(n : Rat)| - 52) (-1074)).toNat, by omega⟩
  have hcast : (n : Rat) / 2 ^ (-(k : Int)) = ((n * 2 ^ k : Int) : Rat) := by
    rw [zpow_neg, div_inv_eq_mul, zpow_natCast]
    push_cast
    rfl
  dsimp only
  rw [hk, hcast, roundEven_int, ← hcast, div_mul_cancel₀ _ (zpow_ne_zero _ (by decide)), if_neg]
  rw [not_le]
  exact hlt.trans (by rw [show (2 : Rat) ^ (53 : Int) = 2 ^ 53 from rfl]; exact pow_lt_pow_right₀ (by decide) (by decide))

theorem toInt64_int {n : Int} (h : |n| < 2 ^ 53) : toInt64 (.finite n) = n := by
  have hb := abs_lt.1 h
  have hcut : (if (n : Rat) < 0 then -⌊-(n : Rat)⌋ else ⌊(n : Rat)⌋) = n := by
    split
    · rw [← Int.cast_neg, Int.floor_intCast, neg_neg]
    · exact Int.floor_intCast n
  unfold toInt64
  dsimp only
  rw [hcut]
  omega

theorem decimal_eq (n : Int) : ∃ sg, decimal n = sg ++ Decimals.digits n.natAbs ∧ (sg = [] ∨ sg = [45]) ∧
    (sg = [45] ↔ n < 0) := by
  unfold decimal
  split
  · rename_i hn
    exact ⟨[45], rfl, Or.inr rfl, iff_of_true rfl hn⟩
  · rename_i hn
    exact ⟨[], rfl, Or.inl rfl, iff_of_false (by decide) hn⟩

theorem decimal_number (n : Int) : CodeNumber (decimal n) := by
  obtain ⟨sg, h, hsg, -⟩ := decimal_eq n
  refine ⟨sg, Decimals.digits n.natAbs, [], [], [], ?_, hsg.imp id Or.inl, Decimals.isDigit_digits _,
    ⟨Or.inl ⟨rfl, rfl⟩, fun _ hc => nomatch hc⟩, Or.inl rfl, Or.inl (Decimals.digits_ne_nil _)⟩
  rw [h, append_nil, append_nil]

theorem length_decimal {n : Int} (h : |n| < 2 ^ 53) : (decimal n).length < 64 := by
  obtain ⟨sg, hd, hsg, -⟩ := decimal_eq n
  have hb := abs_lt.1 h
  have hlen : (Decimals.digits n.natAbs).length ≤ 16 := Decimals.length_digits (by decide) (by omega)
  have hs : sg.length ≤ 1 := by rcases hsg with rfl | rfl <;> decide
  rw [hd, length_append]
  omega

theorem sign_digits (n : Nat) : sign (Decimals.digits n) = (false, Decimals.digits n) :=
  sign_unsigned (fun _ hc => digit_unsigned (Decimals.isDigit_digits n _ (mem_of_mem_head? hc)))

/-- **The number written is the number read.** -/
theorem strtod_decimal (n : Int) : strtod (decimal n) = toDouble n := by
  have hall := Decimals.isDigit_digits n.natAbs
  have htake : (Decimals.digits n.natAbs).takeWhile Decimals.isDigit = Decimals.digits n.natAbs :=
    takeWhile_eq_self_iff.2 hall
  have hdrop : (Decimals.digits n.natAbs).dropWhile Decimals.isDigit = [] := dropWhile_eq_nil_iff.2 hall
  have hsign : sign (decimal n) = (decide (n < 0), Decimals.digits n.natAbs) := by
    unfold decimal
    split
    · rename_i hn
      rw [decide_eq_true hn]
      rfl
    · rename_i hn
      rw [decide_eq_false hn]
      exact sign_digits _
  have hvalue : Decimals.value (Decimals.digits n.natAbs ++ (fraction []).1) = n.natAbs := by
    rw [show (fraction []).1 = [] from rfl, append_nil, Decimals.value_digits]
  unfold strtod
  rw [hsign]
  dsimp only
  rw [htake, hdrop, hvalue]
  by_cases h0 : n = 0
  · rw [h0]
    rfl
  have habs : (if decide (n < 0) = true then -(n.natAbs : Rat) else n.natAbs) = n := by
    by_cases hn : n < 0
    · rw [if_pos (decide_eq_true hn), ← Int.cast_natCast, ← Int.cast_neg, show -(n.natAbs : Int) = n by omega]
    · rw [if_neg (by rw [decide_eq_false hn]; exact Bool.false_ne_true), ← Int.cast_natCast,
        show (n.natAbs : Int) = n by omega]
  rw [if_neg (by omega)]
  change (if 400 < (0 : Int) then _ else if (0 : Int) < -800 then _ else toDouble (_ * 10 ^ (0 : Int))) = _
  rw [if_neg (by decide), if_neg (by decide), zpow_zero, mul_one, habs]

theorem numberJson_int (print : Double → Bytes) {n : Int} (h : |n| < 2 ^ 53) :
    numberJson print (toDouble n) = decimal n := by
  unfold numberJson
  rw [toDouble_int h, toInt64_int h, toDouble_int h, if_pos rfl]

/-! ## Strings -/

/-- **A byte is written as an item that is read as it.** -/
theorem escapeByte_item {c : UInt8} (h : c ≠ 0) : ∃ i : Item, i.text = escapeByte c ∧
    (∀ s, Readable s → Readable (i :: s)) ∧ ∀ s, read (i :: s) = c :: read s := by
  have hesc : ∀ {e : UInt8} (he : (Json.escapeValue e).isSome), escapeByte c = [92, e] →
      (Json.escapeValue e).get he = c → ∃ i : Item, i.text = escapeByte c ∧
        (∀ s, Readable s → Readable (i :: s)) ∧ ∀ s, read (i :: s) = c :: read s := by
    intro e he htext hc
    exact ⟨.escape ⟨e, he⟩, htext.symm, fun _ hs => hs, fun s => by rw [read, hc]⟩
  by_cases h34 : c = 34
  · exact hesc (e := 34) (by rfl) (by rw [h34]; rfl) h34.symm
  by_cases h92 : c = 92
  · exact hesc (e := 92) (by rfl) (by rw [h92]; rfl) h92.symm
  by_cases h10 : c = 10
  · exact hesc (e := 110) (by rfl) (by rw [h10]; rfl) h10.symm
  by_cases h13 : c = 13
  · exact hesc (e := 114) (by rfl) (by rw [h13]; rfl) h13.symm
  by_cases h9 : c = 9
  · exact hesc (e := 116) (by rfl) (by rw [h9]; rfl) h9.symm
  by_cases h32 : c < 32
  · have hn : c.toNat < 32 := h32
    have hhex : ∀ n : Fin 16, Json.hexValue (hexDigit n) = some n.val := by decide
    have h1 := hhex ⟨c.toNat / 16, by omega⟩
    have h2 := hhex ⟨c.toNat % 16, by omega⟩
    have hunit : unit ⟨48, by rfl⟩ ⟨48, by rfl⟩ ⟨hexDigit (c.toNat / 16), by rw [h1]; rfl⟩
        ⟨hexDigit (c.toNat % 16), by rw [h2]; rfl⟩ = c.toNat := by
      unfold unit
      rw [value_eq _ h1, value_eq _ h2]
      show ((0 * 16 + 0) * 16 + c.toNat / 16) * 16 + c.toNat % 16 = c.toNat
      omega
    refine ⟨.unicode ⟨48, by rfl⟩ ⟨48, by rfl⟩ ⟨hexDigit (c.toNat / 16), by rw [h1]; rfl⟩
      ⟨hexDigit (c.toNat % 16), by rw [h2]; rfl⟩, ?_, ?_, ?_⟩
    · unfold escapeByte
      rw [if_neg h34, if_neg h92, if_neg h10, if_neg h13, if_neg h9, if_pos h32]
      rfl
    · intro s hs
      unfold Readable
      rw [hunit]
      refine ⟨?_, fun hh => ?_, hs⟩
      · unfold Json.isLow
        rw [decide_eq_false (by omega), Bool.false_and]
      · unfold Json.isHigh at hh
        rw [decide_eq_false (by omega), Bool.false_and] at hh
        cases hh
    · intro s
      have h0 : c.toNat ≠ 0 := fun h0 => h (UInt8.toNat_inj.1 h0)
      rw [read, hunit, appended_eq h0, Json.utf8, if_pos (by omega), UInt8.ofNat_toNat]
      rfl
  · refine ⟨.plain ⟨c, UInt8.not_lt.1 h32, h34, h92⟩, ?_, fun _ hs => hs, fun _ => rfl⟩
    unfold escapeByte
    rw [if_neg h34, if_neg h92, if_neg h10, if_neg h13, if_neg h9, if_neg h32]
    rfl

theorem jescape_items : ∀ {s : Bytes}, (∀ c ∈ s, c ≠ 0) → ∃ items : List Item,
    items.flatMap Item.text = s.flatMap escapeByte ∧ Readable items ∧ read items = s
  | [], _ => ⟨[], rfl, trivial, rfl⟩
  | c :: s, h => by
    obtain ⟨i, hi, hr, hread⟩ := escapeByte_item (h c mem_cons_self)
    obtain ⟨items, hitems, hrs, hreads⟩ := jescape_items (fun c hc => h c (mem_cons_of_mem _ hc))
    refine ⟨i :: items, ?_, hr items hrs, ?_⟩
    · rw [flatMap_cons, flatMap_cons, hi, hitems]
    · rw [hread, hreads]

theorem jescape_quoted {s : Bytes} (h : ∀ c ∈ s, c ≠ 0) :
    ∃ items : List Item, quoted items = jescape s ∧ Readable items ∧ read items = s := by
  obtain ⟨items, hitems, hr, hread⟩ := jescape_items h
  refine ⟨items, ?_, hr, hread⟩
  unfold quoted jescape
  rw [hitems, takeWhile_eq_self_iff.2 (fun c hc => decide_eq_true (h c hc))]

/-! ## Values -/

inductive Built : JVal → Prop
  | null : Built {}
  | bool (b : Bool) : Built (.ofBool b)
  | int (n : Int) (h : |n| < 2 ^ 53) : Built (.ofNumber (toDouble n))
  | string (s : Bytes) (h : ∀ c ∈ s, c ≠ 0) : Built (.ofString s)
  | array (vs : List JVal) (h : ∀ v ∈ vs, Built v) : Built { fKind := .array, fArray := vs }
  | object (keys : List Bytes) (vs : List JVal) (hlen : keys.length = vs.length) (hkeys : keys.Nodup)
      (hnul : ∀ key ∈ keys, ∀ c ∈ key, c ≠ 0) (h : ∀ v ∈ vs, Built v) :
      Built { fKind := .object, fArray := vs, fKeys := keys }

mutual
def JVal.depth : JVal → Nat
  | ⟨kind, _, _, _, array, _⟩ =>
    match kind with
    | .array | .object => if array.isEmpty then 0 else depths array + 1
    | _                => 0

def depths : List JVal → Nat
  | []      => 0
  | v :: vs => max v.depth (depths vs)
end

mutual
def JVal.reread : JVal → JVal
  | ⟨kind, b, n, s, array, keys⟩ =>
    match kind with
    | .array => if array.isEmpty then {} else ⟨.array, b, n, s, rereads array, keys⟩
    | kind   => ⟨kind, b, n, s, rereads array, keys⟩

def rereads : List JVal → List JVal
  | []      => []
  | v :: vs => v.reread :: rereads vs
end

mutual
def JVal.Full : JVal → Prop
  | ⟨kind, _, _, _, array, _⟩ => (kind = .array → array ≠ []) ∧ AllFull array

def AllFull : List JVal → Prop
  | []      => True
  | v :: vs => v.Full ∧ AllFull vs
end

/-- What `ToJson` writes of a value is the text of a tree. -/
structure Writes (print : Double → Bytes) (v : JVal) (t : Tree .value) : Prop where
  text : t.text = v.toJson print
  depth : t.depth = v.depth
  numbers : ∀ n ∈ t.numbers, CodeNumber n ∧ n.length < 64
  strings : ∀ s ∈ t.strings, Readable s
  build : build read t {} = v.reread

theorem isBlank_nil : ∀ c ∈ ([] : Bytes), Json.isBlank c := fun _ hc => nomatch hc

def noBlank : Blank := ⟨[], isBlank_nil⟩

theorem elements_tree {print : Double → Bytes} : ∀ {vs : List JVal}, vs ≠ [] → (∀ v ∈ vs, ∃ t, Writes print v t) →
    ∃ e : Tree .elements, e.text = elementsJson print vs ∧ e.depth = depths vs ∧
      (∀ n ∈ e.numbers, CodeNumber n ∧ n.length < 64) ∧ (∀ s ∈ e.strings, Readable s) ∧
      ∀ out : JVal, Clangd.build read e out = { out with fKind := .array, fArray := out.fArray ++ rereads vs }
  | [], hne, _ => absurd rfl hne
  | [v], _, h => by
    obtain ⟨t, ht⟩ := h v (mem_singleton_self _)
    refine ⟨.element noBlank t noBlank, ?_, ?_, ht.numbers, ht.strings, fun out => ?_⟩
    · show [] ++ (t.text ++ []) = JVal.toJson print v ++ []
      rw [ht.text, nil_append]
    · show t.depth = max v.depth 0
      rw [ht.depth, Nat.max_zero]
    · rw [build, ht.build]
      rfl
  | v :: v' :: vs, _, h => by
    obtain ⟨t, ht⟩ := h v mem_cons_self
    obtain ⟨e, htext, hdepth, hnumbers, hstrings, hbuild⟩ :=
      @elements_tree print (v' :: vs) (cons_ne_nil _ _) (fun x hx => h x (mem_cons_of_mem _ hx))
    refine ⟨.elements noBlank t noBlank e, ?_, ?_, forall_mem_append.2 ⟨ht.numbers, hnumbers⟩,
      forall_mem_append.2 ⟨ht.strings, hstrings⟩, fun out => ?_⟩
    · show [] ++ (t.text ++ ([] ++ 44 :: e.text)) = JVal.toJson print v ++ 44 :: elementsJson print (v' :: vs)
      rw [ht.text, htext, nil_append, nil_append]
    · show max t.depth e.depth = max v.depth (depths (v' :: vs))
      rw [ht.depth, hdepth]
    · rw [build, ht.build, hbuild]
      show ({ out with fKind := .array, fArray := out.fArray ++ [v.reread] ++ rereads (v' :: vs) } : JVal) = _
      rw [append_assoc]
      rfl

theorem set_new {out : JVal} {key : Bytes} (h : key ∉ out.fKeys) (v : JVal) : out.set key v =
    { out with fKind := .object, fKeys := out.fKeys ++ [key], fArray := out.fArray ++ [v] } := by
  have hnone : out.fKeys.findIdx? (· = key) = none := by
    rw [findIdx?_eq_none_iff]
    intro k hk
    rw [decide_eq_false_iff_not]
    rintro rfl
    exact h hk
  unfold JVal.set
  rw [hnone]

theorem members_tree {print : Double → Bytes} : ∀ {keys : List Bytes} {vs : List JVal}, vs ≠ [] →
    keys.length = vs.length → (∀ key ∈ keys, ∀ c ∈ key, c ≠ 0) → (∀ v ∈ vs, ∃ t, Writes print v t) →
    ∃ m : Tree .members, m.text = membersJson print keys vs ∧ m.depth = depths vs ∧
      (∀ n ∈ m.numbers, CodeNumber n ∧ n.length < 64) ∧ (∀ s ∈ m.strings, Readable s) ∧
      ∀ out : JVal, (out.fKeys ++ keys).Nodup → Clangd.build read m out =
        { out with fKind := .object, fKeys := out.fKeys ++ keys, fArray := out.fArray ++ rereads vs }
  | _, [], hne, _, _, _ => absurd rfl hne
  | [], v :: vs, _, hlen, _, _ => absurd hlen (by simp)
  | [key], [v], _, _, hnul, h => by
    obtain ⟨t, ht⟩ := h v (mem_singleton_self _)
    obtain ⟨items, hitems, hr, hread⟩ := jescape_quoted (hnul key (mem_singleton_self _))
    refine ⟨.member noBlank items noBlank noBlank t noBlank, ?_, ?_, ht.numbers,
      forall_mem_cons.2 ⟨hr, ht.strings⟩, fun out hnd => ?_⟩
    · show [] ++ (quoted items ++ ([] ++ 58 :: ([] ++ (t.text ++ [])))) = jescape key ++ 58 :: (JVal.toJson print v ++ [])
      rw [hitems, ht.text]
      rfl
    · show t.depth = max v.depth 0
      rw [ht.depth, Nat.max_zero]
    · have hnew : key ∉ out.fKeys := fun hm => (nodup_append.1 hnd).2.2 key hm key (mem_singleton_self _) rfl
      rw [build, ht.build, hread, set_new hnew]
      rfl
  | key :: k' :: keys, [v], _, hlen, _, _ => absurd hlen (by simp)
  | [key], v :: v' :: vs, _, hlen, _, _ => absurd hlen (by simp)
  | key :: k' :: keys, v :: v' :: vs, _, hlen, hnul, h => by
    obtain ⟨t, ht⟩ := h v mem_cons_self
    obtain ⟨items, hitems, hr, hread⟩ := jescape_quoted (hnul key mem_cons_self)
    obtain ⟨m, htext, hdepth, hnumbers, hstrings, hbuild⟩ := @members_tree print (k' :: keys) (v' :: vs)
      (cons_ne_nil _ _) (Nat.succ.inj hlen) (fun x hx => hnul x (mem_cons_of_mem _ hx))
      (fun x hx => h x (mem_cons_of_mem _ hx))
    refine ⟨.members noBlank items noBlank noBlank t noBlank m, ?_, ?_, forall_mem_append.2 ⟨ht.numbers, hnumbers⟩,
      forall_mem_cons.2 ⟨hr, forall_mem_append.2 ⟨ht.strings, hstrings⟩⟩, fun out hnd => ?_⟩
    · show [] ++ (quoted items ++ ([] ++ 58 :: ([] ++ (t.text ++ ([] ++ 44 :: m.text))))) =
        jescape key ++ 58 :: (JVal.toJson print v ++ 44 :: membersJson print (k' :: keys) (v' :: vs))
      rw [hitems, ht.text, htext]
      rfl
    · show max t.depth m.depth = max v.depth (depths (v' :: vs))
      rw [ht.depth, hdepth]
    · have hnew : key ∉ out.fKeys := fun hm => (nodup_append.1 hnd).2.2 key hm key mem_cons_self rfl
      rw [build, ht.build, hread, set_new hnew, hbuild]
      · show ({ out with fKind := .object, fKeys := out.fKeys ++ [key] ++ (k' :: keys), fArray := out.fArray ++ [v.reread] ++ rereads (v' :: vs) } : JVal) = _
        rw [append_assoc, append_assoc]
        rfl
      · show (out.fKeys ++ [key] ++ (k' :: keys)).Nodup
        rw [append_assoc]
        exact hnd

/-- **Every value is written as a tree.** -/
theorem writes (print : Double → Bytes) {v : JVal} (h : Built v) : ∃ t, Writes print v t := by
  induction h with
  | null => exact ⟨.literal .null, rfl, rfl, fun _ hn => absurd hn not_mem_nil, fun _ hs => absurd hs not_mem_nil, rfl⟩
  | bool b =>
    cases b with
    | true => exact ⟨.literal .true, rfl, rfl, fun _ hn => absurd hn not_mem_nil, fun _ hs => absurd hs not_mem_nil, rfl⟩
    | false => exact ⟨.literal .false, rfl, rfl, fun _ hn => absurd hn not_mem_nil, fun _ hs => absurd hs not_mem_nil, rfl⟩
  | int n h =>
    refine ⟨.number (decimal n), (numberJson_int print h).symm, rfl, fun x hx => ?_, fun _ hs => absurd hs not_mem_nil, ?_⟩
    · rw [mem_singleton.1 hx]
      exact ⟨decimal_number n, length_decimal h⟩
    · show JVal.ofNumber (strtod (decimal n)) = JVal.ofNumber (toDouble n)
      rw [strtod_decimal]
  | string s h =>
    obtain ⟨items, hitems, hr, hread⟩ := jescape_quoted h
    refine ⟨.string items, hitems, rfl, fun _ hn => absurd hn not_mem_nil, fun x hx => ?_, ?_⟩
    · rw [mem_singleton.1 hx]
      exact hr
    · show JVal.ofString (read items) = JVal.ofString s
      rw [hread]
  | array vs h ih =>
    cases vs with
    | nil => exact ⟨.emptyArray noBlank, rfl, rfl, fun _ hn => absurd hn not_mem_nil, fun _ hs => absurd hs not_mem_nil, rfl⟩
    | cons v vs =>
      obtain ⟨e, htext, hdepth, hnumbers, hstrings, hbuild⟩ := elements_tree (cons_ne_nil v vs) ih
      refine ⟨.array e, ?_, ?_, hnumbers, hstrings, hbuild {}⟩
      · show 91 :: (e.text ++ [93]) = 91 :: (elementsJson print (v :: vs) ++ [93])
        rw [htext]
      · show e.depth + 1 = depths (v :: vs) + 1
        rw [hdepth]
  | object keys vs hlen hkeys hnul h ih =>
    cases vs with
    | nil =>
      rw [length_eq_zero_iff.1 hlen]
      exact ⟨.emptyObject noBlank, rfl, rfl, fun _ hn => absurd hn not_mem_nil, fun _ hs => absurd hs not_mem_nil, rfl⟩
    | cons v vs =>
      obtain ⟨m, htext, hdepth, hnumbers, hstrings, hbuild⟩ := members_tree (cons_ne_nil v vs) hlen hnul ih
      refine ⟨.object m, ?_, ?_, hnumbers, hstrings, hbuild ({} : JVal).becomeObject hkeys⟩
      · show 123 :: (m.text ++ [125]) = 123 :: (membersJson print keys (v :: vs) ++ [125])
        rw [htext]
      · show m.depth + 1 = depths (v :: vs) + 1
        rw [hdepth]

/-- **What is written is read**, an empty array as null. -/
theorem jparse_toJson (print : Double → Bytes) {v : JVal} (h : Built v) (hd : v.depth ≤ 64) :
    jparse (v.toJson print) = .ok v.reread := by
  obtain ⟨t, ht⟩ := writes print h
  have hdoc := jparse_document (d := ⟨noBlank, t, noBlank⟩)
    ⟨by rw [level, Nat.zero_add, ht.depth]; exact hd, ht.numbers, ht.strings⟩
  have htext : Document.text ⟨noBlank, t, noBlank⟩ = v.toJson print := by
    show [] ++ (t.text ++ []) = _
    rw [nil_append, append_nil, ht.text]
  rw [← htext, hdoc, ht.build]

theorem rereads_eq_iff : ∀ {vs : List JVal}, (∀ v ∈ vs, (v.reread = v ↔ v.Full)) → (rereads vs = vs ↔ AllFull vs)
  | [], _ => iff_of_true rfl trivial
  | v :: vs, h => by
    rw [rereads, AllFull, List.cons.injEq, h v mem_cons_self,
      rereads_eq_iff (fun x hx => h x (mem_cons_of_mem _ hx))]

theorem reread_eq_iff {v : JVal} (h : Built v) : v.reread = v ↔ v.Full := by
  induction h with
  | null | bool | int | string => exact iff_of_true rfl ⟨fun hk => (nomatch hk), trivial⟩
  | array vs h ih =>
    cases vs with
    | nil => exact iff_of_false (fun hr => (nomatch congrArg JVal.fKind hr)) (fun hf => hf.1 rfl rfl)
    | cons v vs =>
      have hl := rereads_eq_iff ih
      constructor
      · intro hr
        exact ⟨fun _ => cons_ne_nil _ _, hl.1 (congrArg JVal.fArray hr)⟩
      · intro hf
        exact congrArg (fun a => ({ fKind := .array, fArray := a } : JVal)) (hl.2 hf.2)
  | object keys vs hlen hkeys hnul h ih =>
    have hl := rereads_eq_iff ih
    constructor
    · intro hr
      exact ⟨fun hk => (nomatch hk), hl.1 (congrArg JVal.fArray hr)⟩
    · intro hf
      exact congrArg (fun a => ({ fKind := .object, fArray := a, fKeys := keys } : JVal)) (hl.2 hf.2)

/-- **What is written is read back as it was if and only if** no array in it is empty. -/
theorem roundTrip_iff (print : Double → Bytes) {v : JVal} (h : Built v) (hd : v.depth ≤ 64) :
    jparse (v.toJson print) = .ok v ↔ v.Full := by
  rw [jparse_toJson print h hd, ← reread_eq_iff h]
  exact ⟨fun he => Except.ok.inj he, fun he => congrArg Except.ok he⟩

/-- `[null]` -/
theorem roundTrip_iff_nullElement : jparse (JVal.toJson (fun _ => []) { fKind := .array, fArray := [{}] }) =
    .ok { fKind := .array, fArray := [{}] } :=
  (roundTrip_iff (fun _ => []) (.array [{}] (fun v hv => mem_singleton.1 hv ▸ .null)) (by decide)).2
    ⟨fun _ => cons_ne_nil _ _, ⟨⟨fun hk => (nomatch hk), trivial⟩, trivial⟩⟩

/-- `[]` comes back as null. -/
theorem emptyArray_lost : ¬ ∀ (print : Double → Bytes) (v : JVal), Built v → v.depth ≤ 64 →
    jparse (v.toJson print) = .ok v := by
  intro h
  have hv : Built { fKind := .array } := .array [] (fun _ hm => (nomatch hm))
  have hr := (h (fun _ => []) _ hv (by decide)).symm.trans (jparse_toJson (fun _ => []) hv (by decide))
  exact nomatch congrArg JVal.fKind (Except.ok.inj hr)

/-! ## What builds them -/

end Clangd
end Prose
