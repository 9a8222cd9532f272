import Prose.ClangdJsonTokens
/-!
# ClangdJsonText — what the JSON reader accepts

`JParse` against the trees of RFC 8259: it takes the texts of the trees that are `Accepted`, and no others.
-/
namespace Prose
namespace Clangd

open List

open Json (Item Tree Part Blank HexDigit Document quoted unit utf8 isHigh isLow isBlank Follow)

/-! ## Trees -/

def literalValue : Json.Literal → JVal
  | .null  => {}
  | .true  => .ofBool true
  | .false => .ofBool false

/-- What the reader makes of a tree, in what it has made of the tree's front; `str` is what it makes of a string. -/
def build (str : List Item → Bytes) : {p : Part} → Tree p → JVal → JVal
  | _, .literal l, _                          => literalValue l
  | _, .number t, _                           => .ofNumber (strtod t)
  | _, .string s, _                           => .ofString (str s)
  | _, .emptyArray _, _                       => {}
  | _, .array e, _                            => build str e {}
  | _, .emptyObject _, _                      => ({} : JVal).becomeObject
  | _, .object m, _                           => build str m ({} : JVal).becomeObject
  | _, .element _ v _, out                    => out.add (build str v {})
  | _, .elements _ v _ more, out              => build str more (out.add (build str v {}))
  | _, .member _ key _ _ v _, out             => out.set (str key) (build str v {})
  | _, .members _ key _ _ v _ more, out       => build str more (out.set (str key) (build str v {}))

def level : Part → Nat → Nat
  | .value, depth    => depth
  | .elements, depth => depth + 1
  | .members, depth  => depth + 1

structure Accepted {p : Part} (depth : Nat) (t : Tree p) : Prop where
  depth : level p depth + t.depth ≤ 64
  numbers : ∀ n ∈ t.numbers, CodeNumber n ∧ n.length < 64
  strings : ∀ s ∈ t.strings, Readable s

theorem skipSpace_blank (w : Blank) (s : Bytes) : skipSpace (w.1 ++ s) = skipSpace s :=
  dropWhile_append_of_pos w.2

theorem skipSpace_cons {c : UInt8} (h : isBlank c = false) (s : Bytes) : skipSpace (c :: s) = c :: s := by
  unfold skipSpace
  rw [dropWhile_cons_of_neg]
  rw [h]
  exact Bool.false_ne_true

theorem skipSpace_split (s : Bytes) : ∃ w : Blank, s = w.1 ++ skipSpace s :=
  ⟨⟨s.takeWhile isBlank, fun _ hc => mem_takeWhile_imp hc⟩, takeWhile_append_dropWhile.symm⟩

theorem parseValue_cons {depth : Nat} {s s' : Bytes} {c : UInt8} (hd : depth ≤ 64) (h : skipSpace s = c :: s') :
    parseValue depth s =
      if c = 123 then
        match skipSpace s' with
        | 125 :: s'' => .ok (({} : JVal).becomeObject, s'')
        | _ => parseMembers depth ({} : JVal).becomeObject s'
      else if c = 91 then
        match skipSpace s' with
        | 93 :: s'' => .ok ({}, s'')
        | _ => parseElements depth {} s'
      else if c = 34 then
        match parseString [] s' with
        | .error e => .error e
        | .ok (str, s) => .ok (.ofString str, s)
      else if c = 116 then parseLiteral [116, 114, 117, 101] (.ofBool true) (c :: s')
      else if c = 102 then parseLiteral [102, 97, 108, 115, 101] (.ofBool false) (c :: s')
      else if c = 110 then parseLiteral [110, 117, 108, 108] {} (c :: s')
      else parseNumber (c :: s') := by
  rw [parseValue.eq_def, if_neg (Nat.not_lt.2 hd)]
  split
  · rename_i h'
    rw [h] at h'
    cases h'
  rename_i h'
  rw [h] at h'
  cases h'
  rfl

theorem parseLiteral_append (text : Bytes) (v : JVal) (r : Bytes) : parseLiteral text v (text ++ r) = .ok (v, r) := by
  unfold parseLiteral
  rw [if_pos (List.isPrefixOf_iff_prefix.2 (prefix_append text r)), drop_left]

theorem parseLiteral_ok {text s r : Bytes} {v v' : JVal} (h : parseLiteral text v s = .ok (v', r)) :
    s = text ++ r ∧ v' = v := by
  unfold parseLiteral at h
  split at h
  · rename_i hp
    obtain ⟨rfl, rfl⟩ := Prod.mk.inj (Except.ok.inj h)
    obtain ⟨r, rfl⟩ := isPrefixOf_iff_prefix.1 hp
    exact ⟨by rw [drop_left], rfl⟩
  · cases h

theorem depth_max {k a b : Nat} (ha : k + a ≤ 64) (hb : k + b ≤ 64) : k + max a b ≤ 64 := by omega

mutual
/-- **What is read is a tree.** -/
theorem parseValue_sound {depth : Nat} {s r : Bytes} {v : JVal} (h : parseValue depth s = .ok (v, r)) :
    ∃ (w : Blank) (t : Tree .value), s = w.1 ++ (t.text ++ r) ∧ Accepted depth t ∧ v = build read t {} := by
  obtain ⟨w, hw⟩ := skipSpace_split s
  by_cases hd : depth ≤ 64
  · cases hs : skipSpace s with
    | nil =>
      rw [parseValue.eq_def, if_neg (Nat.not_lt.2 hd)] at h
      split at h
      · cases h
      · rename_i h'
        rw [hs] at h'
        cases h'
    | cons c s' =>
      rw [hs] at hw
      rw [parseValue_cons hd hs] at h
      have hlt := length_skipSpace hs
      have hleaf : ∀ {t : Tree .value}, t.depth = 0 → t.numbers = [] → t.strings = [] → Accepted depth t := by
        intro t h1 h2 h3
        refine ⟨?_, fun n hn => ?_, fun x hx => ?_⟩
        · rw [h1]
          exact hd
        · rw [h2] at hn
          cases hn
        · rw [h3] at hx
          cases hx
      split at h
      · rename_i hc
        split at h
        · rename_i s₁ he
          obtain ⟨w', hw'⟩ := skipSpace_split s'
          obtain ⟨rfl, rfl⟩ := Prod.mk.inj (Except.ok.inj h)
          refine ⟨w, .emptyObject w', ?_, hleaf rfl rfl rfl, rfl⟩
          rw [hw, hc, hw', he]
          simp [Tree.text]
        · obtain ⟨t, rfl, ht, rfl⟩ := parseMembers_sound h
          refine ⟨w, .object t, ?_, ⟨?_, ht.numbers, ht.strings⟩, rfl⟩
          · rw [hw, hc]
            simp [Tree.text]
          · have h1 : depth + 1 + t.depth ≤ 64 := ht.depth
            show depth + (t.depth + 1) ≤ 64
            omega
      split at h
      · rename_i hc
        split at h
        · rename_i s₁ he
          obtain ⟨w', hw'⟩ := skipSpace_split s'
          obtain ⟨rfl, rfl⟩ := Prod.mk.inj (Except.ok.inj h)
          refine ⟨w, .emptyArray w', ?_, hleaf rfl rfl rfl, rfl⟩
          rw [hw, hc, hw', he]
          simp [Tree.text]
        · obtain ⟨t, rfl, ht, rfl⟩ := parseElements_sound h
          refine ⟨w, .array t, ?_, ⟨?_, ht.numbers, ht.strings⟩, rfl⟩
          · rw [hw, hc]
            simp [Tree.text]
          · have h1 : depth + 1 + t.depth ≤ 64 := ht.depth
            show depth + (t.depth + 1) ≤ 64
            omega
      split at h
      · rename_i hc
        split at h
        · cases h
        rename_i str s₁ hstr
        obtain ⟨items, hitems, hr, hread⟩ := parseString_sound hstr
        obtain ⟨rfl, rfl⟩ := Prod.mk.inj (Except.ok.inj h)
        refine ⟨w, .string items, ?_, ⟨hd, fun n hn => (nomatch hn), fun x hx => ?_⟩, ?_⟩
        · rw [hw, hc, hitems, Tree.text, Json.quoted_append]
        · rw [mem_singleton.1 hx]
          exact hr
        · rw [hread]
          rfl
      split at h
      · obtain ⟨hs', rfl⟩ := parseLiteral_ok h
        exact ⟨w, .literal .true, by rw [hw, hs']; rfl, hleaf rfl rfl rfl, rfl⟩
      split at h
      · obtain ⟨hs', rfl⟩ := parseLiteral_ok h
        exact ⟨w, .literal .false, by rw [hw, hs']; rfl, hleaf rfl rfl rfl, rfl⟩
      split at h
      · obtain ⟨hs', rfl⟩ := parseLiteral_ok h
        exact ⟨w, .literal .null, by rw [hw, hs']; rfl, hleaf rfl rfl rfl, rfl⟩
      obtain ⟨t, ht, hcode, hlen, rfl⟩ := parseNumber_sound h
      refine ⟨w, .number t, by rw [hw, ht]; rfl, ⟨hd, fun n hn => ?_, fun x hx => (nomatch hx)⟩, rfl⟩
      rw [mem_singleton.1 hn]
      exact ⟨hcode, hlen⟩
  · rw [parseValue.eq_def, if_pos (Nat.not_le.1 hd)] at h
    cases h
termination_by (s.length, 0)

theorem parseElements_sound {depth : Nat} {out v : JVal} {s r : Bytes} (h : parseElements depth out s = .ok (v, r)) :
    ∃ t : Tree .elements, s = t.text ++ 93 :: r ∧ Accepted depth t ∧ v = build read t out := by
  rw [parseElements.eq_def] at h
  split at h
  · cases h
  rename_i v₁ s₁ hv
  obtain ⟨before, t, hs, ht, rfl⟩ := parseValue_sound hv
  obtain ⟨after, hafter⟩ := skipSpace_split s₁
  split at h
  · rename_i s₂ he
    split at h
    · rename_i hlt
      obtain ⟨more, rfl, hm, rfl⟩ := parseElements_sound h
      refine ⟨.elements before t after more, ?_, ⟨?_, ?_, ?_⟩, rfl⟩
      · rw [hs, hafter, he]
        simp [Tree.text]
      · exact depth_max ht.depth hm.depth
      · exact forall_mem_append.2 ⟨ht.numbers, hm.numbers⟩
      · exact forall_mem_append.2 ⟨ht.strings, hm.strings⟩
    · cases h
  · rename_i s₂ he
    obtain ⟨rfl, rfl⟩ := Prod.mk.inj (Except.ok.inj h)
    refine ⟨.element before t after, ?_, ⟨ht.depth, ht.numbers, ht.strings⟩, rfl⟩
    rw [hs, hafter, he]
    simp [Tree.text]
  · cases h
termination_by (s.length, 1)

theorem parseMembers_sound {depth : Nat} {out v : JVal} {s r : Bytes} (h : parseMembers depth out s = .ok (v, r)) :
    ∃ t : Tree .members, s = t.text ++ 125 :: r ∧ Accepted depth t ∧ v = build read t out := by
  rw [parseMembers.eq_def] at h
  obtain ⟨before, hbefore⟩ := skipSpace_split s
  split at h
  · rename_i s₁ hs
    have hlt₁ := length_skipSpace hs
    split at h
    · cases h
    rename_i key s₂ hkey
    have hlt₂ := length_parseString _ _ hkey
    obtain ⟨items, hitems, hr, rfl⟩ := parseString_sound hkey
    obtain ⟨colon, hcolon⟩ := skipSpace_split s₂
    split at h
    · rename_i s₃ hs₃
      have hlt₃ := length_skipSpace hs₃
      split at h
      · cases h
      rename_i v₁ s₄ hv
      obtain ⟨mid, t, hmid, ht, rfl⟩ := parseValue_sound hv
      obtain ⟨after, hafter⟩ := skipSpace_split s₄
      have hfront : s = before.1 ++ (quoted items ++ (colon.1 ++ 58 :: (mid.1 ++ (t.text ++ (after.1 ++ skipSpace s₄))))) := by
        rw [← hafter, ← hmid, ← hs₃, ← hcolon, Json.quoted_append, ← hitems, ← hs]
        exact hbefore
      split at h
      · rename_i s₅ he
        split at h
        · rename_i hlt
          obtain ⟨more, rfl, hm, rfl⟩ := parseMembers_sound h
          refine ⟨.members before items colon mid t after more, ?_, ⟨?_, ?_, ?_⟩, rfl⟩
          · rw [hfront, he]
            simp [Tree.text]
          · exact depth_max ht.depth hm.depth
          · exact forall_mem_append.2 ⟨ht.numbers, hm.numbers⟩
          · exact forall_mem_cons.2 ⟨hr, forall_mem_append.2 ⟨ht.strings, hm.strings⟩⟩
        · cases h
      · rename_i s₅ he
        obtain ⟨rfl, rfl⟩ := Prod.mk.inj (Except.ok.inj h)
        refine ⟨.member before items colon mid t after, ?_,
          ⟨ht.depth, ht.numbers, forall_mem_cons.2 ⟨hr, ht.strings⟩⟩, rfl⟩
        rw [hfront, he]
        simp [Tree.text]
      · cases h
    · cases h
  · cases h
termination_by (s.length, 1)
end

def parsePart : Part → Nat → JVal → Bytes → Except String (JVal × Bytes)
  | .value, depth, _, s      => parseValue depth s
  | .elements, depth, out, s => parseElements depth out s
  | .members, depth, out, s  => parseMembers depth out s

def closing : Part → Bytes → Bytes
  | .value, r    => r
  | .elements, r => 93 :: r
  | .members, r  => 125 :: r

theorem parseValue_blank (depth : Nat) (w : Blank) (s : Bytes) : parseValue depth (w.1 ++ s) = parseValue depth s := by
  by_cases hd : depth ≤ 64
  · cases hs : skipSpace s with
    | nil =>
      have hw : skipSpace (w.1 ++ s) = [] := (skipSpace_blank w s).trans hs
      rw [parseValue.eq_def, parseValue.eq_def depth s]
      split
      · rfl
      split
      · split
        · rfl
        · rename_i h
          rw [hs] at h
          cases h
      · rename_i h
        rw [hw] at h
        cases h
    | cons c s' => rw [parseValue_cons hd hs, parseValue_cons hd ((skipSpace_blank w s).trans hs)]
  · rw [parseValue.eq_def, if_pos (Nat.not_le.1 hd), parseValue.eq_def depth s, if_pos (Nat.not_le.1 hd)]

theorem numeric_of_accepted {p : Part} {depth : Nat} {t : Tree p} (h : Accepted depth t) : t.Numeric :=
  fun n hn => codeNumber_numeric (h.numbers n hn).1

theorem parseValue_padded {depth : Nat} {v : Tree .value} {c : UInt8} {r : Bytes} (before after : Blank)
    (hc : c = 44 ∨ c = 93 ∨ c = 125)
    (ih : ∀ {r : Bytes}, Follow .value r → parseValue depth (v.text ++ r) = .ok (build read v {}, r)) :
    parseValue depth (before.1 ++ (v.text ++ (after.1 ++ c :: r))) = .ok (build read v {}, after.1 ++ c :: r) ∧
      skipSpace (after.1 ++ c :: r) = c :: r := by
  refine ⟨?_, ?_⟩
  · rw [parseValue_blank, ih (Json.follow_blank after (Json.follow_cons hc r))]
  · rw [skipSpace_blank, skipSpace_cons]
    rcases hc with rfl | rfl | rfl <;> rfl

theorem parseMembers_key {depth : Nat} (out : JVal) (before colon : Blank) {key : List Item} (hkey : Readable key) {s s' : Bytes}
    {v : JVal} (hv : parseValue (depth + 1) s = .ok (v, s')) :
    parseMembers depth out (before.1 ++ (quoted key ++ (colon.1 ++ 58 :: s))) =
      match skipSpace s' with
      | 44 :: s₅ =>
        if s₅.length < (before.1 ++ (quoted key ++ (colon.1 ++ 58 :: s))).length then
          parseMembers depth (out.set (read key) v) s₅
        else .error ""
      | 125 :: s₅ => .ok (out.set (read key) v, s₅)
      | _ => .error "',' or '\x7d' expected" := by
  have h1 : skipSpace (before.1 ++ (quoted key ++ (colon.1 ++ 58 :: s))) =
      34 :: (key.flatMap Item.text ++ 34 :: (colon.1 ++ 58 :: s)) := by
    rw [skipSpace_blank, Json.quoted_append, skipSpace_cons (by rfl)]
  have h2 : parseString [] (key.flatMap Item.text ++ 34 :: (colon.1 ++ 58 :: s)) = .ok (read key, colon.1 ++ 58 :: s) :=
    parseString_items hkey [] _
  have h3 : skipSpace (colon.1 ++ 58 :: s) = 58 :: s := by rw [skipSpace_blank, skipSpace_cons (by rfl)]
  rw [parseMembers.eq_def]
  split
  · rename_i s₁ he
    obtain ⟨-, rfl⟩ := List.cons.inj (h1.symm.trans he)
    split
    · rename_i he₂
      rw [h2] at he₂
      cases he₂
    rename_i he₂
    obtain ⟨rfl, rfl⟩ := Prod.mk.inj (Except.ok.inj (h2.symm.trans he₂))
    split
    · rename_i he₃
      obtain ⟨-, rfl⟩ := List.cons.inj (h3.symm.trans he₃)
      rw [hv]
      rfl
    · rename_i hn
      exact absurd h3 (hn s)
  · rename_i hn
    exact absurd h1 (hn _)

/-- **A tree is read.** -/
theorem parse_tree : ∀ {p : Part} (t : Tree p) {depth : Nat} {out : JVal} {r : Bytes}, Accepted depth t →
    Follow p (closing p r) → parsePart p depth out (t.text ++ closing p r) = .ok (build read t out, r)
  | _, .literal l, depth, out, r, h, _ => by
    have hd : depth ≤ 64 := h.depth
    show parseValue depth (l.text ++ r) = _
    cases l with
    | null =>
      have hs : skipSpace (Json.Literal.null.text ++ r) = 110 :: ([117, 108, 108] ++ r) := skipSpace_cons (by rfl) _
      rw [parseValue_cons hd hs]
      exact parseLiteral_append [110, 117, 108, 108] {} r
    | true =>
      have hs : skipSpace (Json.Literal.true.text ++ r) = 116 :: ([114, 117, 101] ++ r) := skipSpace_cons (by rfl) _
      rw [parseValue_cons hd hs]
      exact parseLiteral_append [116, 114, 117, 101] (.ofBool true) r
    | false =>
      have hs : skipSpace (Json.Literal.false.text ++ r) = 102 :: ([97, 108, 115, 101] ++ r) := skipSpace_cons (by rfl) _
      rw [parseValue_cons hd hs]
      exact parseLiteral_append [102, 97, 108, 115, 101] (.ofBool false) r
  | _, .number t, depth, out, r, h, hf => by
    have hd : depth ≤ 64 := h.depth
    obtain ⟨hcode, hlen⟩ := h.numbers t (mem_singleton_self _)
    obtain ⟨c, s, hs, hb, -⟩ := Json.text_head (.number t) (numeric_of_accepted h)
    have hn : Json.isNumeric c := (codeNumber_numeric hcode).2 c (by
      rw [show t = c :: s from hs]
      exact mem_cons_self)
    have hne : ∀ c', Json.isNumeric c' = false → c ≠ c' := fun c' h' => Json.ne_of_isNumeric hn h'
    show parseValue depth (t ++ r) = _
    rw [show t = c :: s from hs, cons_append, parseValue_cons hd (skipSpace_cons hb _), if_neg (hne 123 rfl),
      if_neg (hne 91 rfl), if_neg (hne 34 rfl), if_neg (hne 116 rfl), if_neg (hne 102 rfl), if_neg (hne 110 rfl),
      ← cons_append, ← show t = c :: s from hs]
    exact parseNumber_append (Json.not_isNumeric_of_follow hf) hcode hlen
  | _, .string s, depth, out, r, h, _ => by
    have hd : depth ≤ 64 := h.depth
    show parseValue depth (quoted s ++ r) = _
    rw [Json.quoted_append, parseValue_cons hd (skipSpace_cons (by rfl) _), if_neg (by decide), if_neg (by decide),
      if_pos rfl, parseString_items (h.strings s (mem_singleton_self _))]
    rfl
  | _, .emptyArray w, depth, out, r, h, _ => by
    have hd : depth ≤ 64 := h.depth
    show parseValue depth (91 :: (w.1 ++ [93]) ++ r) = _
    rw [cons_append, parseValue_cons hd (skipSpace_cons (by rfl) _), if_neg (by decide), if_pos rfl,
      append_assoc, skipSpace_blank, singleton_append, skipSpace_cons (by rfl)]
    rfl
  | _, .array e, depth, out, r, h, _ => by
    have hd : depth + (e.depth + 1) ≤ 64 := h.depth
    obtain ⟨w, c, s, hs, hb, hc⟩ := Json.elements_head e (numeric_of_accepted (t := .array e) h)
    have ih := @parse_tree _ e depth {} r
      ⟨by show depth + 1 + e.depth ≤ 64; omega, h.numbers, h.strings⟩ ⟨r, rfl⟩
    have hskip : skipSpace (e.text ++ 93 :: r) = c :: (s ++ 93 :: r) := by
      rw [hs, append_assoc, skipSpace_blank, cons_append, skipSpace_cons hb]
    show parseValue depth (91 :: (e.text ++ [93]) ++ r) = _
    rw [cons_append, parseValue_cons (by omega) (skipSpace_cons (by rfl) _), if_neg (by decide), if_pos rfl,
      append_assoc, singleton_append, hskip]
    split
    · rename_i he
      exact absurd (List.cons.inj he).1 hc
    · exact ih
  | _, .emptyObject w, depth, out, r, h, _ => by
    have hd : depth ≤ 64 := h.depth
    show parseValue depth (123 :: (w.1 ++ [125]) ++ r) = _
    rw [cons_append, parseValue_cons hd (skipSpace_cons (by rfl) _), if_pos rfl, append_assoc,
      skipSpace_blank, singleton_append, skipSpace_cons (by rfl)]
    rfl
  | _, .object m, depth, out, r, h, _ => by
    have hd : depth + (m.depth + 1) ≤ 64 := h.depth
    obtain ⟨w, s, hs⟩ := Json.members_head m
    have ih := @parse_tree _ m depth ({} : JVal).becomeObject r
      ⟨by show depth + 1 + m.depth ≤ 64; omega, h.numbers, h.strings⟩ ⟨r, rfl⟩
    have hskip : skipSpace (m.text ++ 125 :: r) = 34 :: (s ++ 125 :: r) := by
      rw [hs, append_assoc, skipSpace_blank, cons_append, skipSpace_cons (by rfl)]
    show parseValue depth (123 :: (m.text ++ [125]) ++ r) = _
    rw [cons_append, parseValue_cons (by omega) (skipSpace_cons (by rfl) _), if_pos rfl, append_assoc,
      singleton_append, hskip]
    exact ih
  | _, .element before v after, depth, out, r, h, _ => by
    obtain ⟨hv, hskip⟩ := parseValue_padded (r := r) before after (Or.inr (Or.inl rfl)) (fun hf => @parse_tree _ v (depth + 1) {} _
      (⟨h.depth, h.numbers, h.strings⟩ : Accepted (depth + 1) v) hf)
    show parseElements depth out (before.1 ++ (v.text ++ after.1) ++ 93 :: r) = _
    simp only [append_assoc]
    rw [parseElements.eq_def, hv]
    dsimp only
    rw [hskip]
    rfl
  | _, .elements before v after more, depth, out, r, h, _ => by
    have hd : depth + 1 + max v.depth more.depth ≤ 64 := h.depth
    have ih := @parse_tree _ more depth (out.add (build read v {})) r
      ⟨by show depth + 1 + more.depth ≤ 64; omega, fun n hn => h.numbers n (mem_append_right _ hn),
        fun s hs => h.strings s (mem_append_right _ hs)⟩ ⟨r, rfl⟩
    obtain ⟨hv, hskip⟩ := parseValue_padded (r := more.text ++ 93 :: r) before after (Or.inl rfl)
      (fun hf => @parse_tree _ v (depth + 1) {} _ (⟨by show depth + 1 + v.depth ≤ 64; omega,
        fun n hn => h.numbers n (mem_append_left _ hn), fun s hs => h.strings s (mem_append_left _ hs)⟩ :
          Accepted (depth + 1) v) hf)
    show parseElements depth out (before.1 ++ (v.text ++ (after.1 ++ 44 :: more.text)) ++ 93 :: r) = _
    simp only [append_assoc, cons_append]
    have hlt : (more.text ++ 93 :: r).length < (before.1 ++ (v.text ++ (after.1 ++ 44 :: (more.text ++ 93 :: r)))).length := by
      simp only [length_append, length_cons]
      omega
    rw [parseElements.eq_def, hv]
    dsimp only
    rw [hskip]
    exact (dif_pos hlt).trans ih
  | _, .member before key colon mid v after, depth, out, r, h, _ => by
    obtain ⟨hkey, hstrings⟩ := forall_mem_cons.1 h.strings
    obtain ⟨hv, hskip⟩ := parseValue_padded (r := r) mid after (Or.inr (Or.inr rfl)) (fun hf => @parse_tree _ v (depth + 1) {} _
      (⟨h.depth, h.numbers, hstrings⟩ : Accepted (depth + 1) v) hf)
    show parseMembers depth out (Tree.text _ ++ 125 :: r) = _
    simp only [Tree.text, append_assoc, cons_append]
    rw [parseMembers_key out before colon hkey hv, hskip]
    rfl
  | _, .members before key colon mid v after more, depth, out, r, h, _ => by
    have hd : depth + 1 + max v.depth more.depth ≤ 64 := h.depth
    obtain ⟨hkey, hstrings⟩ := forall_mem_cons.1 h.strings
    have ih := @parse_tree _ more depth (out.set (read key) (build read v {})) r
      ⟨by show depth + 1 + more.depth ≤ 64; omega, fun n hn => h.numbers n (mem_append_right _ hn),
        fun s hs => hstrings s (mem_append_right _ hs)⟩ ⟨r, rfl⟩
    obtain ⟨hv, hskip⟩ := parseValue_padded (r := more.text ++ 125 :: r) mid after (Or.inl rfl)
      (fun hf => @parse_tree _ v (depth + 1) {} _ (⟨by show depth + 1 + v.depth ≤ 64; omega,
        fun n hn => h.numbers n (mem_append_left _ hn), fun s hs => hstrings s (mem_append_left _ hs)⟩ :
          Accepted (depth + 1) v) hf)
    show parseMembers depth out (Tree.text _ ++ 125 :: r) = _
    simp only [Tree.text, append_assoc, cons_append]
    have hlt : (more.text ++ 125 :: r).length < (before.1 ++ (quoted key ++ (colon.1 ++ 58 ::
        (mid.1 ++ (v.text ++ (after.1 ++ 44 :: (more.text ++ 125 :: r))))))).length := by
      simp only [length_append, length_cons]
      omega
    rw [parseMembers_key out before colon hkey hv, hskip]
    exact (if_pos hlt).trans ih

/-! ## Documents -/

/-- **A text with a tree that the reader takes is read.** -/
theorem jparse_document {d : Document} (h : Accepted 0 d.value) : jparse d.text = .ok (build read d.value {}) := by
  have hf : Follow .value d.after.1 := by
    have := Json.follow_blank d.after Json.follow_nil
    rwa [append_nil] at this
  have hskip : skipSpace d.after.1 = [] := by
    have := skipSpace_blank d.after []
    rwa [append_nil] at this
  have hv : parseValue 0 (d.value.text ++ d.after.1) = _ := @parse_tree _ d.value 0 {} _ h hf
  unfold jparse Document.text
  rw [parseValue_blank, hv]
  dsimp only
  rw [if_pos hskip]

theorem jparse_sound {t : Bytes} {v : JVal} (h : jparse t = .ok v) :
    ∃ d : Document, d.text = t ∧ Accepted 0 d.value ∧ v = build read d.value {} := by
  unfold jparse at h
  split at h
  · cases h
  rename_i v₁ s hs
  obtain ⟨w, tree, hw, ht, rfl⟩ := parseValue_sound hs
  obtain ⟨after, hafter⟩ := skipSpace_split s
  split at h
  · rename_i hnil
    rw [hnil, append_nil] at hafter
    rw [hafter] at hw
    exact ⟨⟨w, tree, after⟩, hw.symm, ht, (Except.ok.inj h).symm⟩
  · cases h

/-! ## What strings are read as -/

/-- No NUL is written as `\u0000`. -/
def NoNul (s : List Item) : Prop := ∀ a b c d, .unicode a b c d ∈ s → unit a b c d ≠ 0

theorem denote_unicode {a b c d : HexDigit} {s : List Item}
    (h : isHigh (unit a b c d) = true → ∀ a' b' c' d', s.head? ≠ some (.unicode a' b' c' d')) :
    Json.denote (.unicode a b c d :: s) = utf8 (unit a b c d) ++ Json.denote s := by
  cases s with
  | nil => rfl
  | cons i s =>
    cases i with
    | plain c => rfl
    | escape c => rfl
    | unicode a' b' c' d' =>
      rw [Json.denote, if_neg]
      exact fun hh => h hh.1 a' b' c' d' rfl

theorem appended_eq {cp : Nat} (h : cp ≠ 0) : appended cp = utf8 cp := if_neg h

theorem length_read : ∀ {s : List Item}, Readable s → (read s).length ≤ (Json.denote s).length
  | [], _ => Nat.le_refl _
  | .plain _ :: s, h => Nat.succ_le_succ (length_read (s := s) h)
  | .escape _ :: s, h => Nat.succ_le_succ (length_read (s := s) h)
  | .unicode a b c d :: s, ⟨_, hhigh, h⟩ => by
    have hle : (appended (unit a b c d)).length ≤ (utf8 (unit a b c d)).length := by
      unfold appended
      split
      · exact Nat.zero_le _
      · exact Nat.le_refl _
    rw [denote_unicode hhigh, read, length_append, length_append]
    exact Nat.add_le_add hle (length_read h)

/-- **The reader drops NULs, and nothing else.** -/
theorem read_eq_denote_iff : ∀ {s : List Item}, Readable s → (read s = Json.denote s ↔ NoNul s)
  | [], _ => iff_of_true rfl (fun _ _ _ _ hm => nomatch hm)
  | .plain x :: s, h => by
    have hn : NoNul (.plain x :: s) ↔ NoNul s :=
      ⟨fun hn a b c d hm => hn a b c d (mem_cons_of_mem _ hm), fun hn a b c d hm => hn a b c d (by simpa using hm)⟩
    rw [hn, ← read_eq_denote_iff (s := s) h, read, Json.denote]
    exact cons_inj_right x.1
  | .escape x :: s, h => by
    have hn : NoNul (.escape x :: s) ↔ NoNul s :=
      ⟨fun hn a b c d hm => hn a b c d (mem_cons_of_mem _ hm), fun hn a b c d hm => hn a b c d (by simpa using hm)⟩
    rw [hn, ← read_eq_denote_iff (s := s) h, read, Json.denote]
    exact cons_inj_right _
  | .unicode a b c d :: s, ⟨_, hhigh, h⟩ => by
    have ih := read_eq_denote_iff h
    rw [denote_unicode hhigh, read]
    constructor
    · intro he
      have hu : unit a b c d ≠ 0 := by
        intro hu
        have hlen := congrArg List.length he
        have hle := length_read h
        rw [hu] at hlen
        change (read s).length = (Json.denote s).length + 1 at hlen
        omega
      rw [appended_eq hu, append_cancel_left_eq] at he
      intro a' b' c' d' hm
      rcases mem_cons.1 hm with hm | hm
      · cases hm
        exact hu
      · exact ih.1 he a' b' c' d' hm
    · intro hn
      rw [appended_eq (hn a b c d mem_cons_self), ih.2 (fun a' b' c' d' hm => hn a' b' c' d' (mem_cons_of_mem _ hm))]

theorem build_congr {f g : List Item → Bytes} : ∀ {p : Part} (t : Tree p) (out : JVal), (∀ s ∈ t.strings, f s = g s) →
    build f t out = build g t out
  | _, .literal _, _, _ => rfl
  | _, .number _, _, _ => rfl
  | _, .string s, _, h => by rw [build, build, h s (mem_singleton_self _)]
  | _, .emptyArray _, _, _ => rfl
  | _, .array e, out, h => build_congr e {} h
  | _, .emptyObject _, _, _ => rfl
  | _, .object m, out, h => build_congr m _ h
  | _, .element _ v _, out, h => by rw [build, build, build_congr v {} h]
  | _, .elements _ v _ more, out, h => by
    obtain ⟨hv, hm⟩ := forall_mem_append.1 h
    rw [build, build, build_congr v {} hv, build_congr more _ hm]
  | _, .member _ key _ _ v _, out, h => by
    obtain ⟨hk, hv⟩ := forall_mem_cons.1 h
    rw [build, build, hk, build_congr v {} hv]
  | _, .members _ key _ _ v _ more, out, h => by
    obtain ⟨hk, hr⟩ := forall_mem_cons.1 h
    obtain ⟨hv, hm⟩ := forall_mem_append.1 hr
    rw [build, build, hk, build_congr v {} hv, build_congr more _ hm]

/-! ## The RFC's texts -/

/-- No value is in more than 64 brackets, and no number is longer than 63. -/
def Within (d : Document) : Prop := d.value.depth ≤ 64 ∧ ∀ n ∈ d.value.numbers, n.length < 64

/-- A text of the RFC is read, and each of its strings as what it denotes; another is refused. -/
def ReadsRfc (t : Bytes) : Prop :=
  (∀ d : Document, d.text = t → d.Rfc → Within d → jparse t = .ok (build Json.denote d.value {}) ∧
    ∀ s ∈ d.value.strings, ∀ r, parseString [] (s.flatMap Item.text ++ 34 :: r) = .ok (Json.denote s, r)) ∧
  ((¬ ∃ d : Document, d.text = t ∧ d.Rfc) → ∀ v, jparse t ≠ .ok v)

theorem accepted_of_jparse {d : Document} (hn : ∀ n ∈ d.value.numbers, CodeNumber n) {v : JVal} (h : jparse d.text = .ok v) :
    Accepted 0 d.value := by
  obtain ⟨d', ht, ha, -⟩ := jparse_sound h
  rw [← Json.document_unique (numeric_of_accepted ha) (fun n hm => codeNumber_numeric (hn n hm)) ht]
  exact ha

/-- **The reader is one of the RFC's texts if and only if** the text, read as loosely as the reader does, either keeps to
the RFC and writes no NUL and no half of a surrogate pair but a first one behind which none is written, or does not keep to
the RFC and writes such a half. -/
theorem readsRfc_iff (t : Bytes) : ReadsRfc t ↔ ∀ d : Document, d.text = t → Within d →
    (∀ n ∈ d.value.numbers, CodeNumber n) →
      d.Rfc ∧ (∀ s ∈ d.value.strings, Readable s ∧ NoNul s) ∨ ¬ d.Rfc ∧ ∃ s ∈ d.value.strings, ¬ Readable s := by
  constructor
  · rintro ⟨haccept, hrefuse⟩ d rfl hw hn
    by_cases hrfc : d.Rfc
    · left
      obtain ⟨hok, hstrings⟩ := haccept d rfl hrfc hw
      refine ⟨hrfc, fun s hs => ?_⟩
      have hr := (accepted_of_jparse hn hok).strings s hs
      have hread := (parseString_items hr [] []).symm.trans (hstrings s hs [])
      exact ⟨hr, (read_eq_denote_iff hr).1 (Prod.mk.inj (Except.ok.inj hread)).1⟩
    · right
      refine ⟨hrfc, ?_⟩
      by_contra hno
      have hc : ∀ s ∈ d.value.strings, Readable s := fun s hs => by_contra (fun hr => hno ⟨s, hs, hr⟩)
      refine hrefuse ?_ _ (jparse_document ⟨by rw [level, Nat.zero_add]; exact hw.1, fun n hm => ⟨hn n hm, hw.2 n hm⟩, hc⟩)
      rintro ⟨d', ht, hrfc'⟩
      have hd : d' = d := Json.document_unique (fun n hm => codeNumber_numeric (codeNumber_of_rfc (hrfc'.1 n hm)))
        (fun n hm => codeNumber_numeric (hn n hm)) ht
      exact hrfc (hd ▸ hrfc')
  · intro h
    constructor
    · rintro d rfl hrfc hw
      have hn : ∀ n ∈ d.value.numbers, CodeNumber n := fun n hm => codeNumber_of_rfc (hrfc.1 n hm)
      obtain ⟨-, hs⟩ := (h d rfl hw hn).resolve_right (fun hc => hc.1 hrfc)
      have hread : ∀ s ∈ d.value.strings, read s = Json.denote s := fun s hm =>
        (read_eq_denote_iff (hs s hm).1).2 (hs s hm).2
      refine ⟨?_, fun s hm r => ?_⟩
      · rw [jparse_document ⟨by rw [level, Nat.zero_add]; exact hw.1, fun n hm => ⟨hn n hm, hw.2 n hm⟩,
          fun s hm => (hs s hm).1⟩, build_congr d.value {} hread]
      · rw [parseString_items (hs s hm).1, nil_append, hread s hm]
    · intro hno v hv
      obtain ⟨d, rfl, ha, -⟩ := jparse_sound hv
      have hw : Within d := ⟨by have := ha.depth; rwa [level, Nat.zero_add] at this, fun n hm => (ha.numbers n hm).2⟩
      rcases h d rfl hw (fun n hm => (ha.numbers n hm).1) with ⟨hrfc, -⟩ | ⟨-, s, hm, hs⟩
      · exact hno ⟨d, rfl, hrfc⟩
      · exact hs (ha.strings s hm)

/-- `"\ud83d\ude00"` -/
def surrogatePair : Document where
  before := ⟨[], fun _ hc => nomatch hc⟩
  value := .string [.unicode ⟨100, by decide⟩ ⟨56, by decide⟩ ⟨51, by decide⟩ ⟨100, by decide⟩,
    .unicode ⟨100, by decide⟩ ⟨101, by decide⟩ ⟨48, by decide⟩ ⟨48, by decide⟩]
  after := ⟨[], fun _ hc => nomatch hc⟩

/-- A character written as a pair is refused. -/
theorem surrogatePair_refused : ¬ ∀ t, ReadsRfc t := by
  intro h
  have hrfc : surrogatePair.Rfc := ⟨fun _ hn => (nomatch hn),
    ['"', '\\', 'u', 'd', '8', '3', 'd', '\\', 'u', 'd', 'e', '0', '0', '"'], by decide⟩
  obtain ⟨hok, -⟩ := (h surrogatePair.text).1 surrogatePair rfl hrfc ⟨by decide, fun _ hn => (nomatch hn)⟩
  have hr := (accepted_of_jparse (d := surrogatePair) (fun _ hn => (nomatch hn)) hok).strings _ (mem_singleton_self _)
  exact hr.2.1 (by decide) _ _ _ _ rfl

end Clangd
end Prose
