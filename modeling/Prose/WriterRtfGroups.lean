import Prose.WriterRtfChars
/-!
# WriterRtfGroups — groups the reader skips

`SkipGroup` walks to the end of an ignorable group on its own.  `Skips` is the text it gets over right (no escaped
brace), `Balanced` the rest of a document body with some groups open.  The group's closing brace is eaten there, so the
loop's depth and its stack keep the entry of the group: `skip_iff` says for which groups this is never seen.
-/
namespace Prose
namespace Writer

open Scan List

def Inert (c : Byte) : Prop := c ≠ ascii '\x7b' ∧ c ≠ ascii '\x7d' ∧ c ≠ ascii '\\'

instance (c : Byte) : Decidable (Inert c) := inferInstanceAs (Decidable (_ ∧ _ ∧ _))

def isHexDigit (c : Byte) : Bool :=
  isDigit c || (97 ≤ c.val && c.val ≤ 102) || (65 ≤ c.val && c.val ≤ 70)

/-- Text up to the end of a group, with `n` groups open inside: no brace in it is escaped. -/
inductive Skips : Nat → List Byte → Prop
  | last : Skips 0 [ascii '\x7d']
  | close {n x} : Skips n x → Skips (n + 1) (ascii '\x7d' :: x)
  | group {n x} : Skips (n + 1) x → Skips n (ascii '\x7b' :: x)
  | char {n c x} : Inert c → Skips n x → Skips n (c :: x)
  | backslash {n x} : Skips n x → Skips n (ascii '\\' :: ascii '\\' :: x)
  | hex {n h h' x} : isHexDigit h → isHexDigit h' → Skips n x → Skips n (ascii '\\' :: ascii '\'' :: h :: h' :: x)
  | control {n c x} : Inert c → c ≠ ascii '\'' → Skips n (c :: x) → Skips n (ascii '\\' :: c :: x)

theorem skipGroup_cons (n : Nat) (c : Byte) (s : List Byte) : skipGroup n (c :: s) =
    if c = ascii '\x7b' then skipGroup (n + 1) s
    else if c = ascii '\x7d' then if n = 0 then s else skipGroup (n - 1) s
    else if c = ascii '\\' then
      match s with
      | []      => []
      | e :: s' =>
        if e = ascii '\'' then
          match s' with
          | _ :: _ :: s'' => skipGroup n s''
          | _ => []
        else if e = ascii '\\' then skipGroup n s'
        else skipGroup n (e :: s')
    else skipGroup n s := by
  rewrite [skipGroup.eq_def]
  rfl

/-- **`SkipGroup` gets to the end of the group.** -/
theorem Skips.skipGroup_append {n : Nat} {x : List Byte} (h : Skips n x) (rest : List Byte) :
    skipGroup n (x ++ rest) = rest := by
  induction h with
  | last => rw [singleton_append, skipGroup_cons, if_neg (by decide), if_pos rfl, if_pos rfl]
  | @close n x hx ih =>
    rw [cons_append, skipGroup_cons, if_neg (by decide), if_pos rfl, if_neg (Nat.succ_ne_zero n),
      Nat.add_sub_cancel, ih]
  | @group n x hx ih => rw [cons_append, skipGroup_cons, if_pos rfl, ih]
  | @char n c x hc hx ih =>
    obtain ⟨h1, h2, h3⟩ := hc
    rw [cons_append, skipGroup_cons, if_neg h1, if_neg h2, if_neg h3, ih]
  | @backslash n x hx ih =>
    rw [cons_append, cons_append, skipGroup_cons, if_neg (by decide), if_neg (by decide), if_pos rfl]
    dsimp only
    rw [if_neg (by decide), if_pos rfl, ih]
  | @hex n h h' x hh hh' hx ih =>
    rw [cons_append, cons_append, skipGroup_cons, if_neg (by decide), if_neg (by decide), if_pos rfl]
    dsimp only
    rw [if_pos rfl, cons_append, cons_append]
    exact ih
  | @control n c x hc hq hx ih =>
    rw [cons_append, cons_append, skipGroup_cons, if_neg (by decide), if_neg (by decide), if_pos rfl]
    dsimp only
    rw [if_neg hq, if_neg hc.2.2]
    exact ih

/-! ## Inert characters in front -/

/-- What holds of a text that begins with an inert character holds of the rest. -/
def Peels (P : List Byte → Prop) : Prop := ∀ c s, Inert c → P (c :: s) → P s

theorem inert_of_isAlpha {c : Byte} (h : isAlpha c) : Inert c :=
  ⟨ne_of_isAlpha h (by decide), ne_of_isAlpha h (by decide), ne_of_isAlpha h (by decide)⟩

theorem inert_of_isDigit {c : Byte} (h : isDigit c) : Inert c := by
  refine ⟨?_, ?_, ?_⟩ <;> rintro rfl <;> exact absurd h (by decide)

theorem Peels.dropWhile {P : List Byte → Prop} (h : Peels P) {p : Byte → Bool} (hp : ∀ c, p c → Inert c) :
    ∀ {s : List Byte}, P s → P (s.dropWhile p)
  | [], hs => hs
  | c :: s, hs => by
    by_cases hc : p c
    · rw [dropWhile_cons_of_pos hc]
      exact h.dropWhile hp (h c s (hp c hc) hs)
    · rw [dropWhile_cons_of_neg hc]
      exact hs

theorem Peels.readParam {P : List Byte → Prop} (h : Peels P) {s : List Byte} (hs : P s) : P (readParam s).2 := by
  unfold Writer.readParam
  split
  · exact hs
  rename_i c s
  split_ifs with hd hm
  · exact h.dropWhile (fun c => inert_of_isDigit) hs
  · subst hm
    exact h.dropWhile (fun c => inert_of_isDigit) (h _ _ (by decide) hs)
  · exact hs

theorem Peels.skipSpace {P : List Byte → Prop} (h : Peels P) {s : List Byte} (hs : P s) : P (skipSpace s) := by
  unfold Writer.skipSpace
  split
  · exact hs
  split_ifs with hc
  · subst hc
    exact h _ _ (by decide) hs
  · exact hs

theorem Peels.word {P : List Byte → Prop} (h : Peels P) {s : List Byte} (hs : P s) :
    P (Writer.skipSpace (Writer.readParam (s.dropWhile isAlpha)).2) :=
  h.skipSpace (h.readParam (h.dropWhile (fun _ => inert_of_isAlpha) hs))

theorem peels_skips (n : Nat) (rest : List Byte) : Peels (fun s => ∃ x, Skips n x ∧ s = x ++ rest) := by
  rintro c s hc ⟨x, hx, heq⟩
  cases hx with
  | last => exact absurd (List.cons.inj heq).1 hc.2.1
  | close hx => exact absurd (List.cons.inj heq).1 hc.2.1
  | group hx => exact absurd (List.cons.inj heq).1 hc.1
  | char _ hx => exact ⟨_, hx, (List.cons.inj heq).2⟩
  | backslash hx => exact absurd (List.cons.inj heq).1 hc.2.2
  | hex _ _ hx => exact absurd (List.cons.inj heq).1 hc.2.2
  | control _ _ hx => exact absurd (List.cons.inj heq).1 hc.2.2

/-! ## Ignorable groups -/

/-- What stands behind the backslash of a control that is skipped, up to the end of its group. -/
inductive Skipped : List Byte → Prop
  | starred {x} : Skips 0 x → Skipped (ascii '*' :: x)
  | destination {w x} : isDestinationWord w → w ≠ chars "fonttbl" → w ≠ chars "colortbl" → (∀ c ∈ w, isAlpha c) →
      (∀ c ∈ x.head?, isAlpha c = false) → Skips 0 x → Skipped (w ++ x)

/-- An ignorable group: a starred destination or a destination word, and no escaped brace. -/
def Ignorable (g : List Byte) : Prop := ∃ x, Skipped x ∧ g = ascii '\x7b' :: ascii '\\' :: x

theorem Skips.head?_append {x : List Byte} (h : Skips 0 x) (rest : List Byte) : (x ++ rest).head? = x.head? := by
  cases h <;> rfl

theorem isDestinationWord_ne_nil {w : List Byte} (h : isDestinationWord w) : w ≠ [] := by
  rintro rfl
  exact absurd h (by decide)

/-- **A skipped control**: the reader stays as it was. -/
theorem step_skipped {x : List Byte} (h : Skipped x) {r : RtfReader} (ht : r.inTable = false) (rest : List Byte) :
    r.step (ascii '\\' :: (x ++ rest)) = (r, rest) := by
  rw [RtfReader.step, if_neg (by decide), if_neg (by decide), if_pos rfl]
  cases h with
  | @starred x hx =>
    have hne : x ++ rest ≠ [] := by
      cases hx <;> exact cons_ne_nil _ _
    obtain ⟨y, hy, heq⟩ := (peels_skips 0 rest).word ⟨x, hx, rfl⟩
    rw [cons_append, RtfReader.control, if_neg (by decide), if_neg (by decide), if_pos rfl, if_neg hne]
    unfold RtfReader.readWord RtfReader.controlWord
    rw [if_pos rfl, heq, hy.skipGroup_append]
  | @destination w x hd hfont hcolor hw hhead hx =>
    obtain ⟨htake, hdrop⟩ := Scan.span_append (x := x ++ rest) hw (by rwa [hx.head?_append rest])
    obtain ⟨y, hy, heq⟩ := (peels_skips 0 rest).skipSpace ((peels_skips 0 rest).readParam ⟨x, hx, rfl⟩)
    obtain ⟨c, w', rfl⟩ := exists_cons_of_ne_nil (isDestinationWord_ne_nil hd)
    have hc := hw c mem_cons_self
    have hsymbol : ¬ (c = ascii '\\' ∨ c = ascii '\x7b' ∨ c = ascii '\x7d') := by
      rintro (h | h | h)
      · exact ne_of_isAlpha hc (by decide) h
      · exact ne_of_isAlpha hc (by decide) h
      · exact ne_of_isAlpha hc (by decide) h
    rw [append_assoc, cons_append, RtfReader.control, if_neg hsymbol,
      if_neg (ne_of_isAlpha hc (by decide)), if_neg (ne_of_isAlpha hc (by decide)), ← cons_append]
    unfold RtfReader.readWord RtfReader.controlWord
    rw [htake, hdrop, if_neg Bool.false_ne_true, if_neg hfont, if_neg hcolor, if_neg (by rw [ht]; exact Bool.false_ne_true),
      if_pos hd, heq, hy.skipGroup_append]

def RtfReader.pushed (r : RtfReader) : RtfReader := { r with fDepth := r.fDepth + 1, fStack := r.fState :: r.fStack }

/-- **An ignorable group** leaves its depth and its entry on the stack behind. -/
theorem reads_ignorable {g : List Byte} (h : Ignorable g) {r : RtfReader} (hr : r.InBody) :
    Reads RtfReader.inGroup RtfReader.step r g r.pushed := by
  obtain ⟨x, hx, rfl⟩ := h
  have hskip : Reads RtfReader.inGroup RtfReader.step r.pushed (ascii '\\' :: x) r.pushed :=
    Reads.of_step eats_step (cons_ne_nil _ _) rfl (fun rest => step_skipped hx (r := r.pushed) hr.2 rest)
  exact (reads_open hr.1).append hskip

/-! ## The rest of a body -/

/-- The rest of a document body with `n` groups open: it closes them, and nothing but line breaks follows. -/
inductive Balanced : Nat → List Byte → Prop
  | done {s} : (∀ c ∈ s, c = ascii '\n' ∨ c = ascii '\r') → Balanced 0 s
  | char {n c s} : Inert c → Balanced (n + 1) s → Balanced (n + 1) (c :: s)
  | symbol {n c s} : c = ascii '\\' ∨ c = ascii '\x7b' ∨ c = ascii '\x7d' → Balanced (n + 1) s →
      Balanced (n + 1) (ascii '\\' :: c :: s)
  | hex {n h h' s} : isHexDigit h → isHexDigit h' → Balanced (n + 1) s →
      Balanced (n + 1) (ascii '\\' :: ascii '\'' :: h :: h' :: s)
  | control {n c s} : Inert c → c ≠ ascii '\'' → c ≠ ascii '*' → ¬ isDestinationWord ((c :: s).takeWhile isAlpha) →
      Balanced (n + 1) (c :: s) → Balanced (n + 1) (ascii '\\' :: c :: s)
  | group {n s} : Balanced (n + 2) s → Balanced (n + 1) (ascii '\x7b' :: s)
  | close {n s} : Balanced n s → Balanced (n + 1) (ascii '\x7d' :: s)
  | skip {n x s} : Skipped x → Balanced n s → Balanced (n + 1) (ascii '\\' :: (x ++ s))

theorem peels_balanced (n : Nat) : Peels (Balanced (n + 1)) := by
  rintro c s hc h
  cases h with
  | char _ h => exact h
  | symbol _ h => exact absurd rfl hc.2.2
  | hex _ _ h => exact absurd rfl hc.2.2
  | control _ _ _ _ h => exact absurd rfl hc.2.2
  | group h => exact absurd rfl hc.1
  | close h => exact absurd rfl hc.2.1
  | skip _ h => exact absurd rfl hc.2.2

/-! ## Two readers side by side -/

def Shown.chars (s : Shown) : List Byte × List PWCharFormat := (s.text, s.formats)

def SameText (r r' : RtfReader) : Prop := ∃ pre s pre' s', r.At pre s ∧ r'.At pre' s' ∧
  pre.map Shown.chars = pre'.map Shown.chars ∧ s.chars = s'.chars

theorem SameText.congr {r r' q q' : RtfReader} (h : SameText r r') (hdoc : q.fDoc = r.fDoc)
    (hseen : q.fSeenAlignForPara = r.fSeenAlignForPara) (hdoc' : q'.fDoc = r'.fDoc)
    (hseen' : q'.fSeenAlignForPara = r'.fSeenAlignForPara) : SameText q q' := by
  obtain ⟨pre, s, pre', s', hat, hat', hpre, hs⟩ := h
  exact ⟨pre, s, pre', s', ⟨hdoc ▸ hat.shows, hseen ▸ hat.seen⟩, ⟨hdoc' ▸ hat'.shows, hseen' ▸ hat'.seen⟩, hpre, hs⟩

theorem Shown.chars_type {s s' : Shown} (h : s.chars = s'.chars) (t : List Byte) (f : PWCharFormat) :
    (s.type t f).chars = (s'.type t f).chars := by
  obtain ⟨ht, hf⟩ := Prod.mk.inj h
  unfold Shown.chars Shown.type
  rw [ht, hf]

theorem chars_typeLines (f : PWCharFormat) : ∀ (ls : List (List Byte)) {pre pre' : List Shown} {s s' : Shown},
    pre.map Shown.chars = pre'.map Shown.chars → s.chars = s'.chars →
      (typeLines f pre s ls).1.map Shown.chars = (typeLines f pre' s' ls).1.map Shown.chars ∧
        (typeLines f pre s ls).2.chars = (typeLines f pre' s' ls).2.chars
  | [], _, _, _, _, hpre, hs => ⟨hpre, hs⟩
  | [l], _, _, _, _, hpre, hs => ⟨hpre, Shown.chars_type hs l f⟩
  | l :: m :: ls, _, _, _, _, hpre, hs => by
    rw [typeLines, typeLines]
    refine chars_typeLines f (m :: ls) ?_ rfl
    rw [map_append, map_append, map_singleton, map_singleton, hpre, Shown.chars_type hs l f]

theorem SameText.emit {r r' : RtfReader} (h : SameText r r') (hf : r.format = r'.format) (bytes : List UInt8) :
    SameText (r.emit bytes) (r'.emit bytes) := by
  obtain ⟨pre, s, pre', s', hat, hat', hpre, hs⟩ := h
  have hlines := chars_typeLines r.format (lines (cString bytes)) hpre hs
  have hat'' := hat'.emit bytes
  rw [← hf] at hat''
  exact ⟨_, _, _, _, hat.emit bytes, hat'', hlines.1, hlines.2⟩

theorem SameText.endParagraph {r r' : RtfReader} (h : SameText r r') : SameText r.endParagraph r'.endParagraph := by
  obtain ⟨pre, s, pre', s', hat, hat', hpre, hs⟩ := h
  refine ⟨_, _, _, _, hat.endParagraph, hat'.endParagraph, ?_, rfl⟩
  rw [map_append, map_append, hpre]
  exact congrArg (fun c => _ ++ [c]) hs

/-- The format a reader would type in with the state `s`. -/
def RtfReader.formatAs (r : RtfReader) (s : RtfState) : PWCharFormat := RtfReader.format { r with fState := s }

theorem formatAs_eq_iff (r : RtfReader) (s s' : RtfState) : r.formatAs s = r.formatAs s' ↔
    familyOf r.fFonts r.fDefault.family s.font = familyOf r.fFonts r.fDefault.family s'.font ∧
      (if s.size > 0 then s.size else 12) = (if s'.size > 0 then s'.size else 12) ∧
        colorOf r.fColors r.fDefault.color s.color = colorOf r.fColors r.fDefault.color s'.color ∧
          s.bold = s'.bold ∧ s.italic = s'.italic ∧ s.underline = s'.underline := by
  unfold RtfReader.formatAs RtfReader.format
  rw [PWCharFormat.mk.injEq]
  rfl

theorem formatAs_ite {r : RtfReader} {c : Prop} [Decidable c] {s t s' t' : RtfState} (h : r.formatAs s = r.formatAs s')
    (h' : r.formatAs t = r.formatAs t') : r.formatAs (if c then s else t) = r.formatAs (if c then s' else t') := by
  split_ifs
  · exact h
  · exact h'

theorem formatAs_word {r : RtfReader} {s s' : RtfState} (h : r.formatAs s = r.formatAs s') (w : List Byte)
    (param : Option Int) : r.formatAs (s.word w param) = r.formatAs (s'.word w param) := by
  obtain ⟨hfamily, hsize, hcolor, hbold, hitalic, hunderline⟩ := (formatAs_eq_iff r s s').1 h
  unfold RtfState.word
  dsimp only
  -- one case for each word; what it does not set it leaves alone
  repeat' refine formatAs_ite ?_ ?_
  all_goals refine (formatAs_eq_iff r _ _).2 ⟨?_, ?_, ?_, ?_, ?_, ?_⟩ <;> first | assumption | rfl

/-- Two readers that type alike as long as `n` groups are open: the same tables, states of one format, and stacks that
hold states of one format for all of these groups but the last. -/
structure Alike (n : Nat) (r r' : RtfReader) : Prop where
  text : SameText r r'
  fonts : r'.fFonts = r.fFonts
  colors : r'.fColors = r.fColors
  dflt : r'.fDefault = r.fDefault
  body : r.inTable = false
  body' : r'.inTable = false
  now : r.formatAs r.fState = r.formatAs r'.fState
  depth : n ≤ r.fDepth
  depth' : n ≤ r'.fDepth
  stack : ∀ i, i + 1 < n → ∃ t t', r.fStack[i]? = some t ∧ r'.fStack[i]? = some t' ∧ r.formatAs t = r.formatAs t'

variable {n : Nat} {r r' : RtfReader}

theorem Alike.format (h : Alike n r r') : r.format = r'.format := by
  refine h.now.trans ?_
  unfold RtfReader.formatAs RtfReader.format
  rw [h.fonts, h.colors, h.dflt]

theorem Alike.inGroup (h : Alike (n + 1) r r') : r.inGroup = true :=
  decide_eq_true (Nat.lt_of_lt_of_le (Nat.succ_pos n) h.depth)

theorem Alike.inGroup' (h : Alike (n + 1) r r') : r'.inGroup = true :=
  decide_eq_true (Nat.lt_of_lt_of_le (Nat.succ_pos n) h.depth')

theorem Alike.emit (h : Alike n r r') (bytes : List UInt8) : Alike n (r.emit bytes) (r'.emit bytes) where
  text := h.text.emit h.format bytes
  fonts := h.fonts
  colors := h.colors
  dflt := h.dflt
  body := h.body
  body' := h.body'
  now := h.now
  depth := h.depth
  depth' := h.depth'
  stack := h.stack

theorem endParagraph_eq (r : RtfReader) :
    ∃ doc seen, r.endParagraph = { r with fDoc := doc, fSeenAlignForPara := seen } := by
  unfold RtfReader.endParagraph RtfReader.applyParaFormat
  dsimp only
  split_ifs
  · exact ⟨_, _, rfl⟩
  · exact ⟨_, _, rfl⟩
  · exact ⟨_, _, rfl⟩

theorem Alike.endParagraph (h : Alike n r r') : Alike n r.endParagraph r'.endParagraph := by
  have htext := h.text.endParagraph
  obtain ⟨doc, seen, heq⟩ := endParagraph_eq r
  obtain ⟨doc', seen', heq'⟩ := endParagraph_eq r'
  rw [heq, heq'] at htext ⊢
  exact ⟨htext, h.fonts, h.colors, h.dflt, h.body, h.body', h.now, h.depth, h.depth', h.stack⟩

theorem Alike.word (h : Alike n r r') (w : List Byte) (param : Option Int) :
    Alike n { r with fState := r.fState.word w param } { r' with fState := r'.fState.word w param } :=
  ⟨h.text.congr rfl rfl rfl rfl, h.fonts, h.colors, h.dflt, h.body, h.body', formatAs_word h.now w param, h.depth,
    h.depth', h.stack⟩

theorem Alike.pushed (h : Alike n r r') : Alike (n + 1) r.pushed r'.pushed where
  text := h.text.congr rfl rfl rfl rfl
  fonts := h.fonts
  colors := h.colors
  dflt := h.dflt
  body := h.body
  body' := h.body'
  now := h.now
  depth := Nat.succ_le_succ h.depth
  depth' := Nat.succ_le_succ h.depth'
  stack := by
    rintro (_ | i) hi
    · exact ⟨_, _, rfl, rfl, h.now⟩
    · exact h.stack i (Nat.lt_of_succ_lt_succ hi)

theorem Alike.mono {m : Nat} (h : Alike n r r') (hm : m ≤ n) : Alike m r r' :=
  ⟨h.text, h.fonts, h.colors, h.dflt, h.body, h.body', h.now, hm.trans h.depth, hm.trans h.depth',
    fun i hi => h.stack i (Nat.lt_of_lt_of_le hi hm)⟩

theorem closeGroup_eq {r : RtfReader} (ht : r.inTable = false) : ∃ k, r.closeGroup =
    { r with fDepth := r.fDepth - 1, fState := r.fStack.head?.getD r.fState, fStack := r.fStack.tail, fTableDepth := k } := by
  unfold RtfReader.inTable at ht
  rw [Bool.or_eq_false_iff] at ht
  unfold RtfReader.closeGroup RtfReader.popState
  dsimp only
  cases hstack : r.fStack with
  | nil =>
    split_ifs
    · exact ⟨32000, by simp [ht.1, ht.2]⟩
    · exact ⟨r.fTableDepth, rfl⟩
  | cons t ts =>
    dsimp only
    split_ifs
    · exact ⟨32000, by simp [ht.1, ht.2]⟩
    · exact ⟨r.fTableDepth, rfl⟩

theorem SameText.closeGroup (h : SameText r r') (ht : r.inTable = false) (ht' : r'.inTable = false) :
    SameText r.closeGroup r'.closeGroup := by
  obtain ⟨k, heq⟩ := closeGroup_eq ht
  obtain ⟨k', heq'⟩ := closeGroup_eq ht'
  rw [heq, heq']
  exact h.congr rfl rfl rfl rfl

/-- **A closing brace**: both readers go back to states of one format. -/
theorem Alike.close (h : Alike (n + 2) r r') : Alike (n + 1) r.closeGroup r'.closeGroup := by
  have htext := h.text.closeGroup h.body h.body'
  obtain ⟨k, heq⟩ := closeGroup_eq h.body
  obtain ⟨k', heq'⟩ := closeGroup_eq h.body'
  obtain ⟨t, t', ht, ht', hformat⟩ := h.stack 0 (Nat.succ_lt_succ (Nat.succ_pos n))
  have hdepth := h.depth
  have hdepth' := h.depth'
  rw [heq, heq'] at htext ⊢
  rw [← head?_eq_getElem?] at ht ht'
  refine ⟨htext, h.fonts, h.colors, h.dflt, h.body, h.body', ?_, Nat.le_sub_one_of_lt hdepth,
    Nat.le_sub_one_of_lt hdepth', fun i hi => ?_⟩
  · rw [ht, ht']
    exact hformat
  · obtain ⟨u, u', hu, hu', hformat⟩ := h.stack (i + 1) (Nat.succ_lt_succ hi)
    exact ⟨u, u', by rwa [getElem?_tail], by rwa [getElem?_tail], hformat⟩

/-! ## In lockstep -/

/-- Where both readers are after a turn, with the same text still to read. -/
def Beside (r r' : RtfReader) (s : List Byte) : Prop :=
  (∃ n, Balanced (n + 1) s ∧ Alike (n + 1) r r') ∨ (Balanced 0 s ∧ SameText r r')

theorem balanced_skipSubstitute {s : List Byte} (h : Balanced (n + 1) s) : Balanced (n + 1) (skipSubstitute s) := by
  unfold skipSubstitute
  split
  · exact h
  rename_i c s
  split_ifs with hc hq
  · subst hc
    exact peels_balanced n _ _ (by decide) h
  · obtain ⟨rfl, hhead⟩ := hq
    cases h with
    | char hc => exact absurd rfl hc.2.2
    | symbol hc => exact absurd (Option.some.inj hhead) (by rintro rfl; exact absurd hc (by decide))
    | @hex _ a b _ ha hb h =>
      refine Balanced.char ?_ h
      refine ⟨?_, ?_, ?_⟩ <;> rintro rfl <;> exact absurd hb (by decide)
    | control _ hc => exact absurd (Option.some.inj hhead) hc
    | @skip _ x _ hx =>
      cases hx with
      | starred => exact absurd (Option.some.inj hhead) (by decide)
      | @destination w x hd _ _ hw =>
        obtain ⟨c, w, rfl⟩ := exists_cons_of_ne_nil (isDestinationWord_ne_nil hd)
        exact absurd (Option.some.inj hhead) (ne_of_isAlpha (hw c mem_cons_self) (by decide))
  · exact h

theorem controlWord_body {r : RtfReader} (ht : r.inTable = false) {w : List Byte} (hw : ¬ isDestinationWord w)
    (param : Option Int) (s : List Byte) : r.controlWord false w param s =
      if w = chars "par" ∨ w = chars "line" then (r.endParagraph, s)
      else if w = chars "tab" then (r.emit [9], s)
      else match if w = chars "u" then param else none with
        | some cp => (r.emitUnicode cp, skipSubstitute s)
        | none => ({ r with fState := r.fState.word w param }, s) := by
  have hfont : w ≠ chars "fonttbl" := by
    rintro rfl
    exact hw (by decide)
  have hcolor : w ≠ chars "colortbl" := by
    rintro rfl
    exact hw (by decide)
  unfold RtfReader.controlWord
  rewrite [if_neg Bool.false_ne_true, if_neg hfont, if_neg hcolor, if_neg (by rw [ht]; exact Bool.false_ne_true), if_neg hw]
  rfl

/-- **A control word that is not skipped**, before two readers. -/
theorem Alike.controlWord (h : Alike (n + 1) r r') {w : List Byte} (hw : ¬ isDestinationWord w) (param : Option Int)
    {s : List Byte} (hs : Balanced (n + 1) s) :
    (r.controlWord false w param s).2 = (r'.controlWord false w param s).2 ∧
      Balanced (n + 1) (r.controlWord false w param s).2 ∧
        Alike (n + 1) (r.controlWord false w param s).1 (r'.controlWord false w param s).1 := by
  rw [controlWord_body h.body hw, controlWord_body h.body' hw]
  by_cases hpar : w = chars "par" ∨ w = chars "line"
  · rw [if_pos hpar, if_pos hpar]
    exact ⟨rfl, hs, h.endParagraph⟩
  by_cases htab : w = chars "tab"
  · rw [if_neg hpar, if_neg hpar, if_pos htab, if_pos htab]
    exact ⟨rfl, hs, h.emit [9]⟩
  rw [if_neg hpar, if_neg hpar, if_neg htab, if_neg htab]
  cases (if w = chars "u" then param else none) with
  | some cp => exact ⟨rfl, balanced_skipSubstitute hs, h.emit _⟩
  | none => exact ⟨rfl, hs, h.word w param⟩

theorem step_control {c : Byte} (hc : Inert c) (hq : c ≠ ascii '\'') (hstar : c ≠ ascii '*') (r : RtfReader)
    (s : List Byte) : r.step (ascii '\\' :: c :: s) = r.readWord false (c :: s) := by
  obtain ⟨h1, h2, h3⟩ := hc
  rw [RtfReader.step, if_neg (by decide), if_neg (by decide), if_pos rfl, RtfReader.control,
    if_neg (by rintro (h | h | h) <;> contradiction), if_neg hq, if_neg hstar]

theorem step_hexByte (r : RtfReader) (h h' : Byte) (s : List Byte) :
    r.step (ascii '\\' :: ascii '\'' :: h :: h' :: s) =
      (r.emit [UInt8.ofNat (hexValue h * 16 + hexValue h')], s) := by
  rw [RtfReader.step, if_neg (by decide), if_neg (by decide), if_pos rfl, RtfReader.control, if_neg (by decide),
    if_pos rfl]
  rfl

theorem step_open (r : RtfReader) (s : List Byte) : r.step (ascii '\x7b' :: s) = (r.pushed, s) := by
  rw [RtfReader.step, if_pos rfl]
  rfl

theorem step_close (r : RtfReader) (s : List Byte) : r.step (ascii '\x7d' :: s) = (r.closeGroup, s) := by
  rw [RtfReader.step, if_neg (by decide), if_pos rfl]

/-- **A turn of both readers.** -/
theorem Alike.step {s : List Byte} (h : Alike (n + 1) r r') (hs : Balanced (n + 1) s) :
    (r.step s).2 = (r'.step s).2 ∧ Beside (r.step s).1 (r'.step s).1 (r.step s).2 := by
  cases hs with
  | @char _ c s hc hs =>
    rw [step_char s hc, step_char s hc, h.body, h.body', if_neg Bool.false_ne_true, if_neg Bool.false_ne_true]
    split_ifs
    · exact ⟨rfl, Or.inl ⟨n, hs, h⟩⟩
    · exact ⟨rfl, Or.inl ⟨n, hs, h.emit _⟩⟩
  | @symbol _ c s hc hs =>
    rw [step_symbol hc, step_symbol hc]
    exact ⟨rfl, Or.inl ⟨n, hs, h.emit _⟩⟩
  | @hex _ a b s ha hb hs =>
    rw [step_hexByte, step_hexByte]
    exact ⟨rfl, Or.inl ⟨n, hs, h.emit _⟩⟩
  | @control _ c s hc hq hstar hw hs =>
    rw [step_control hc hq hstar, step_control hc hq hstar]
    obtain ⟨heq, hrest, halike⟩ := h.controlWord hw (readParam ((c :: s).dropWhile isAlpha)).1 ((peels_balanced n).word hs)
    exact ⟨heq, Or.inl ⟨n, hrest, halike⟩⟩
  | @group _ s hs =>
    rw [step_open, step_open]
    exact ⟨rfl, Or.inl ⟨n + 1, hs, h.pushed⟩⟩
  | @close _ s hs =>
    rw [step_close, step_close]
    refine ⟨rfl, ?_⟩
    cases n with
    | zero => exact Or.inr ⟨hs, h.text.closeGroup h.body h.body'⟩
    | succ n => exact Or.inl ⟨n, hs, h.close⟩
  | @skip _ x s hx hs =>
    rw [step_skipped hx h.body, step_skipped hx h.body']
    refine ⟨rfl, ?_⟩
    cases n with
    | zero => exact Or.inr ⟨hs, h.text⟩
    | succ n => exact Or.inl ⟨n, hs, h.mono (Nat.le_succ _)⟩

theorem loop_breaks : ∀ {s : List Byte} (r : RtfReader), (∀ c ∈ s, c = ascii '\n' ∨ c = ascii '\r') → r.loop s = r
  | [], r, _ => rfl
  | c :: s, r, h => by
    have hc := h c mem_cons_self
    have hinert : Inert c := by
      rcases hc with rfl | rfl <;> decide
    cases hg : r.inGroup with
    | false => exact run_stop hg _
    | true =>
      rw [loop_step hg, step_char s hinert, if_pos hc]
      exact loop_breaks r (fun c hc => h c (mem_cons_of_mem _ hc))

/-- **The rest of a body** read by two readers that type alike. -/
theorem Alike.loop {s : List Byte} (h : Alike (n + 1) r r') (hs : Balanced (n + 1) s) : SameText (r.loop s) (r'.loop s) := by
  refine run_lockstep eats_step (R := Beside) (Q := SameText) ?_ (Or.inl ⟨n, hs, h⟩)
  rintro r r' s (⟨n, hs, h⟩ | ⟨hs, h⟩)
  · obtain ⟨heq, hnext⟩ := h.step hs
    refine Or.inr ⟨?_, h.inGroup, h.inGroup', heq, hnext⟩
    cases hs <;> exact cons_ne_nil _ _
  · cases hs with
    | done hbreaks =>
      refine Or.inl ?_
      have hr := loop_breaks r hbreaks
      have hr' := loop_breaks r' hbreaks
      unfold RtfReader.loop at hr hr'
      rw [hr, hr']
      exact h

/-! ## Standing in a body -/

/-- What holds of the reader in every turn: its document shows something, and the stack has an entry for each group but
the first. -/
structure RtfReader.Sound (r : RtfReader) : Prop where
  shows : ∃ pre s, r.At pre s
  depth : r.fDepth = r.fStack.length + 1 ∨ r.fDepth = 0

theorem RtfReader.Sound.congr {r q : RtfReader} (h : r.Sound) (hdoc : q.fDoc = r.fDoc)
    (hseen : q.fSeenAlignForPara = r.fSeenAlignForPara) (hdepth : q.fDepth = r.fDepth) (hstack : q.fStack = r.fStack) :
    q.Sound := by
  obtain ⟨⟨pre, s, hat⟩, hd⟩ := h
  exact ⟨⟨pre, s, hdoc ▸ hat.shows, hseen ▸ hat.seen⟩, by rwa [hdepth, hstack]⟩

theorem RtfReader.Sound.emit (h : r.Sound) (bytes : List UInt8) : (r.emit bytes).Sound := by
  obtain ⟨⟨pre, s, hat⟩, hd⟩ := h
  exact ⟨⟨_, _, hat.emit bytes⟩, hd⟩

theorem RtfReader.Sound.endParagraph (h : r.Sound) : r.endParagraph.Sound := by
  obtain ⟨⟨pre, s, hat⟩, hd⟩ := h
  have hat' := hat.endParagraph
  obtain ⟨doc, seen, heq⟩ := endParagraph_eq r
  rw [heq] at hat' ⊢
  exact ⟨⟨_, _, hat'⟩, hd⟩

theorem RtfReader.Sound.tableControl (h : r.Sound) (w : List Byte) (param : Option Int) : (r.tableControl w param).Sound := by
  unfold RtfReader.tableControl RtfReader.storeName
  cases param with
  | none => exact h
  | some p =>
    dsimp only
    split_ifs <;> exact h.congr rfl rfl rfl rfl

theorem RtfReader.Sound.readWord (h : r.Sound) (starred : Bool) (s : List Byte) : (r.readWord starred s).1.Sound := by
  unfold RtfReader.readWord RtfReader.controlWord
  dsimp only
  split_ifs
  · exact h
  · exact h.congr rfl rfl rfl rfl
  · exact h.congr rfl rfl rfl rfl
  · exact h.tableControl _ _
  · exact h
  · exact h.endParagraph
  · exact h.emit _
  · split
    · exact h.emit _
    · exact h.congr rfl rfl rfl rfl
  · exact h.congr rfl rfl rfl rfl

theorem RtfReader.Sound.control (h : r.Sound) (s : List Byte) : (r.control s).1.Sound := by
  unfold RtfReader.control
  split
  · exact h
  split_ifs
  · exact h.emit _
  · exact h.emit _
  · exact h
  · exact h.readWord _ _
  · exact h.readWord _ _

theorem RtfReader.Sound.charInTable (h : r.Sound) (c : Byte) : (r.charInTable c).Sound := by
  unfold RtfReader.charInTable RtfReader.storeName
  dsimp only
  split_ifs <;> exact h.congr rfl rfl rfl rfl

theorem RtfReader.Sound.closeGroup (h : r.Sound) (hg : r.inGroup = true) : r.closeGroup.Sound := by
  obtain ⟨⟨pre, s, hat⟩, hd⟩ := h
  have hpos : 0 < r.fDepth := of_decide_eq_true hg
  have hdepth : r.fDepth = r.fStack.length + 1 := by omega
  unfold RtfReader.closeGroup RtfReader.popState
  dsimp only
  cases hstack : r.fStack with
  | nil =>
    rw [hstack] at hdepth
    dsimp only
    split_ifs <;> exact ⟨⟨pre, s, hat.shows, hat.seen⟩, Or.inr (by rw [hdepth]; rfl)⟩
  | cons t ts =>
    rw [hstack] at hdepth
    dsimp only
    split_ifs <;> exact ⟨⟨pre, s, hat.shows, hat.seen⟩, Or.inl (by rw [hdepth]; rfl)⟩

/-- **A turn.** -/
theorem RtfReader.Sound.step (h : r.Sound) (hg : r.inGroup = true) (s : List Byte) : (r.step s).1.Sound := by
  unfold RtfReader.step
  split
  · exact h
  split_ifs
  · refine ⟨?_, Or.inl ?_⟩
    · obtain ⟨pre, s, hat⟩ := h.shows
      exact ⟨pre, s, hat.shows, hat.seen⟩
    · have hpos : 0 < r.fDepth := of_decide_eq_true hg
      have hdepth := h.depth
      dsimp only
      rw [length_cons]
      omega
  · exact h.closeGroup hg
  · exact h.control _
  · exact h
  · exact h.charInTable _
  · exact h.emit _

/-- **Every turn of a run.** -/
theorem RtfReader.Sound.turns {s : List Byte} {c : RtfReader × List Byte}
    (ht : Turns RtfReader.inGroup RtfReader.step (r, s) c) (h : r.Sound) : c.1.Sound := by
  induction ht with
  | refl => exact h
  | tail _ hturn ih =>
    obtain ⟨-, hg, rfl⟩ := hturn
    exact ih.step hg _

theorem sound_start {d : PWDocument} (hd : d.WellFormed) : (RtfReader.start d).Sound := by
  refine ⟨⟨shown d.fParas.dropLast, (d.fParas.getLast hd.ne_nil).shown, ⟨hd.tiled, ?_⟩, fun i hi => ?_⟩, Or.inl rfl⟩
  · have hsplit := dropLast_append_getLast hd.ne_nil
    calc shown d.fParas = shown (d.fParas.dropLast ++ [d.fParas.getLast hd.ne_nil]) := by rw [hsplit]
      _ = _ := map_append
  · exact absurd hi not_mem_nil

/-- The reader behind the text `a`, which begins behind the first brace. -/
def RtfReader.behind (d : PWDocument) (a : List Byte) : RtfReader := (RtfReader.start d).loop a

/-- The loop comes to stand between `a` and `b`: a token ends there. -/
def Splits (d : PWDocument) (a b : List Byte) : Prop :=
  Turns RtfReader.inGroup RtfReader.step (RtfReader.start d, a ++ b) (RtfReader.behind d a, b)

theorem Splits.loop_eq {d : PWDocument} {a b : List Byte} (h : Splits d a b) :
    (RtfReader.start d).loop (a ++ b) = (RtfReader.behind d a).loop b := Turns.run_eq eats_step h

def PWDocument.readText (d : PWDocument) : List (List Byte × List PWCharFormat) :=
  d.fParas.map (fun p => (p.text, formats p.runs))

theorem loadRTF_brace (d : PWDocument) (s : List Byte) : d.loadRTF (ascii '\x7b' :: s) =
    some ((((RtfReader.start d).loop s).applyParaFormat (((RtfReader.start d).loop s).fDoc.fParas.length - 1)).fDoc) := by
  rw [PWDocument.loadRTF, if_pos rfl]
  rfl

theorem readText_loadRTF {d : PWDocument} {s : List Byte} {pre : List Shown} {q : Shown}
    (h : ((RtfReader.start d).loop s).At pre q) : (d.loadRTF (ascii '\x7b' :: s)).map PWDocument.readText =
      some (pre.map Shown.chars ++ [q.chars]) := by
  have hshown := congrArg (List.map Shown.chars) h.finish
  rw [shown, map_map, map_append, map_singleton] at hshown
  rw [loadRTF_brace, Option.map_some]
  exact congrArg some hshown

/-! ## Closing braces -/

theorem reads_closes : ∀ {i : Nat} {r : RtfReader}, r.inTable = false → i < r.fDepth → i ≤ r.fStack.length → ∃ t k,
    (r.fState :: r.fStack)[i]? = some t ∧ Reads RtfReader.inGroup RtfReader.step r (List.replicate i (ascii '\x7d'))
      { r with fDepth := r.fDepth - i, fState := t, fStack := r.fStack.drop i, fTableDepth := k }
  | 0, r, _, _, _ => ⟨r.fState, r.fTableDepth, rfl, Reads.nil r⟩
  | i + 1, r, ht, hd, hi => by
    have hg : r.inGroup = true := decide_eq_true (Nat.zero_lt_of_lt hd)
    obtain ⟨t, ts, hstack⟩ := exists_cons_of_ne_nil (ne_nil_of_length_pos (Nat.zero_lt_of_lt hi))
    obtain ⟨k, hclose⟩ := closeGroup_eq ht
    rw [hstack] at hclose hi
    obtain ⟨t', k', ht', hreads⟩ := reads_closes (i := i)
      (r := { r with fDepth := r.fDepth - 1, fState := t, fStack := ts, fTableDepth := k }) ht
      (by dsimp only; omega) (Nat.le_of_succ_le_succ hi)
    have hfirst := reads_close hg
    rw [hclose] at hfirst
    refine ⟨t', k', by rw [hstack]; exact ht', ?_⟩
    have hall := hfirst.append hreads
    rw [hstack, drop_succ_cons]
    dsimp only at hall
    rw [Nat.sub_sub, Nat.add_comm 1 i] at hall
    exact hall

theorem At.loop_closes : ∀ (i : Nat) {r : RtfReader} {pre : List Shown} {s : Shown}, r.inTable = false → r.At pre s →
    (r.loop (List.replicate i (ascii '\x7d'))).At pre s
  | 0, _, _, _, _, h => h
  | i + 1, r, _, _, ht, h => by
    cases hg : r.inGroup with
    | false =>
      have hstop : r.loop (List.replicate (i + 1) (ascii '\x7d')) = r := run_stop hg _
      rw [hstop]
      exact h
    | true =>
      obtain ⟨k, hclose⟩ := closeGroup_eq ht
      rw [replicate_succ, loop_step hg, step_close, hclose]
      exact At.loop_closes i ht ⟨h.shows, h.seen⟩

theorem balanced_closes : ∀ (i : Nat) {n : Nat} {s : List Byte}, Balanced n s →
    Balanced (n + i) (List.replicate i (ascii '\x7d') ++ s)
  | 0, _, _, h => h
  | i + 1, _, _, h => Balanced.close (balanced_closes i h)

/-- The text that closes `i` groups, types an `x` and closes `k` more. -/
def probe (i k : Nat) : List Byte :=
  List.replicate i (ascii '\x7d') ++ ascii 'x' :: List.replicate k (ascii '\x7d')

theorem balanced_probe (i k : Nat) : Balanced (k + 1 + i) (probe i (k + 1)) := by
  refine balanced_closes i (Balanced.char (by decide) ?_)
  have := balanced_closes (k + 1) (Balanced.done (s := []) (fun c hc => absurd hc not_mem_nil))
  rwa [append_nil, Nat.zero_add] at this

/-- **What the probe types**: the `x` comes in the state that the brace in front of it goes back to. -/
theorem At.probe {i : Nat} (k : Nat) {r : RtfReader} {pre : List Shown} {s : Shown} (ht : r.inTable = false)
    (hat : r.At pre s) (hd : i < r.fDepth) (hi : i ≤ r.fStack.length) : ∃ t, (r.fState :: r.fStack)[i]? = some t ∧
      (r.loop (probe i k)).At pre (s.type [ascii 'x'] (r.formatAs t)) := by
  obtain ⟨t, k', hget, hreads⟩ := reads_closes ht hd hi
  refine ⟨t, hget, ?_⟩
  have hg : RtfReader.inGroup
      { r with fDepth := r.fDepth - i, fState := t, fStack := r.fStack.drop i, fTableDepth := k' } = true :=
    decide_eq_true (Nat.sub_pos_of_lt hd)
  have hrun : r.loop (Writer.probe i k) = _ := hreads (ascii 'x' :: List.replicate k (ascii '\x7d'))
  rw [hrun]
  refine (congrArg (fun q : RtfReader => q.At pre (s.type [ascii 'x'] (r.formatAs t))) (loop_step hg _ _)).mpr ?_
  rw [step_char _ (by decide), if_neg (by decide), if_neg (by exact ht ▸ Bool.false_ne_true)]
  refine At.loop_closes k ht ?_
  exact RtfReader.At.byte (r := { r with fDepth := r.fDepth - i, fState := t, fStack := r.fStack.drop i, fTableDepth := k' })
    ⟨hat.shows, hat.seen⟩ (ascii 'x')

/-! ## Ignorable groups -/

theorem SameText.readText {d : PWDocument} {s s' : List Byte}
    (h : SameText ((RtfReader.start d).loop s) ((RtfReader.start d).loop s')) :
    (d.loadRTF (ascii '\x7b' :: s)).map PWDocument.readText = (d.loadRTF (ascii '\x7b' :: s')).map PWDocument.readText := by
  obtain ⟨pre, q, pre', q', hat, hat', hpre, hq⟩ := h
  rw [readText_loadRTF hat, readText_loadRTF hat', hpre, hq]

theorem loop_ignorable {d : PWDocument} {a g : List Byte}
    (ha : ∀ c rest, c = ascii '\x7b' ∨ c = ascii '\x7d' → Splits d a (c :: rest)) (hbody : (RtfReader.behind d a).InBody)
    (hg : Ignorable g) (b : List Byte) :
    (RtfReader.start d).loop (a ++ (g ++ b)) = (RtfReader.behind d a).pushed.loop b := by
  have hread := reads_ignorable hg hbody b
  obtain ⟨x, -, rfl⟩ := hg
  exact (ha _ _ (Or.inl rfl)).loop_eq.trans hread

/-- The states in force behind the closing braces, without the group and with it, are the same if all are. -/
theorem alike_pushed {r : RtfReader} {m : Nat} (hr : r.Sound) (hbody : r.InBody) (hm : m + 1 ≤ r.fDepth)
    (hstack : ∀ s ∈ r.fStack.take m, r.formatAs s = r.format) : Alike (m + 1) r.pushed r := by
  obtain ⟨⟨pre, s, hat⟩, hdepth⟩ := hr
  have hlen : m ≤ r.fStack.length := by omega
  have hget : ∀ i < m, ∃ t, r.fStack[i]? = some t ∧ r.formatAs t = r.format := fun i hi => by
    have hlt : i < r.fStack.length := by omega
    refine ⟨r.fStack[i], getElem?_eq_getElem hlt, hstack _ ?_⟩
    exact mem_take_iff_getElem.2 ⟨i, by omega, rfl⟩
  refine ⟨⟨pre, s, pre, s, ⟨hat.shows, hat.seen⟩, hat, rfl, rfl⟩, rfl, rfl, rfl, hbody.2, hbody.2, rfl,
    Nat.le_succ_of_le hm, hm, ?_⟩
  rintro (_ | i) hi
  · obtain ⟨t, ht, hformat⟩ := hget 0 (by omega)
    exact ⟨r.fState, t, rfl, ht, hformat.symm⟩
  · obtain ⟨t, ht, hformat⟩ := hget i (by omega)
    obtain ⟨t', ht', hformat'⟩ := hget (i + 1) (by omega)
    exact ⟨t, t', ht, ht', hformat.trans hformat'.symm⟩

theorem formatAs_of_probe {d : PWDocument} {r r' : RtfReader} {i k : Nat} {pre : List Shown} {s : Shown}
    {u v : List Byte} (hr : (RtfReader.start d).loop u = r.loop (probe i k))
    (hr' : (RtfReader.start d).loop v = r'.loop (probe i k)) (hat : r.At pre s) (hat' : r'.At pre s)
    (ht : r.inTable = false) (ht' : r'.inTable = false) (hd : i < r.fDepth) (hd' : i < r'.fDepth)
    (hi : i ≤ r.fStack.length) (hi' : i ≤ r'.fStack.length)
    (heq : (d.loadRTF (ascii '\x7b' :: u)).map PWDocument.readText = (d.loadRTF (ascii '\x7b' :: v)).map PWDocument.readText) :
    ∃ t t', (r.fState :: r.fStack)[i]? = some t ∧ (r'.fState :: r'.fStack)[i]? = some t' ∧
      r.formatAs t = r'.formatAs t' := by
  obtain ⟨t, hget, hprobe⟩ := At.probe k ht hat hd hi
  obtain ⟨t', hget', hprobe'⟩ := At.probe k ht' hat' hd' hi'
  rw [← hr] at hprobe
  rw [← hr'] at hprobe'
  rw [readText_loadRTF hprobe, readText_loadRTF hprobe'] at heq
  have hlast := (append_inj' (Option.some.inj heq) rfl).2
  have hformats := congrArg Prod.snd (singleton_inj.1 hlast)
  exact ⟨t, t', hget, hget', singleton_inj.1 (append_cancel_left hformats)⟩

/-- **An ignorable group is invisible** just if the groups around it, but for the outermost, began in the format that is
in force at it: behind it the text and its formats are the same for every rest of the body. -/
theorem ignorable_invisible_iff {d : PWDocument} (hd : d.WellFormed) {a g : List Byte} {m : Nat}
    (ha : ∀ c rest, c = ascii '\x7b' ∨ c = ascii '\x7d' → Splits d a (c :: rest)) (hbody : (RtfReader.behind d a).InBody)
    (hm : m + 1 ≤ (RtfReader.behind d a).fDepth) (hg : Ignorable g) :
    (∀ b, Balanced (m + 1) b → Splits d a b →
      (d.loadRTF (ascii '\x7b' :: (a ++ (g ++ b)))).map PWDocument.readText =
        (d.loadRTF (ascii '\x7b' :: (a ++ b))).map PWDocument.readText) ↔
      ∀ s ∈ (RtfReader.behind d a).fStack.take m,
        (RtfReader.behind d a).formatAs s = (RtfReader.behind d a).format := by
  have hsound : (RtfReader.behind d a).Sound := (sound_start hd).turns (ha (ascii '\x7b') [] (Or.inl rfl))
  have hgroup := loop_ignorable ha hbody hg
  constructor
  · intro h
    obtain ⟨⟨pre, s, hat⟩, hdepth⟩ := hsound
    -- the probe behind `i + 1` braces sees the entries `i` of the two stacks
    have hstep : ∀ i < m, ∃ t t',
        ((RtfReader.behind d a).fState :: (RtfReader.behind d a).fStack)[i]? = some t ∧
          (RtfReader.behind d a).fStack[i]? = some t' ∧
            (RtfReader.behind d a).formatAs t = (RtfReader.behind d a).formatAs t' := by
      intro i hi
      have hbal : Balanced (m + 1) (probe (i + 1) (m - i - 1 + 1)) := by
        have := balanced_probe (i + 1) (m - i - 1)
        rwa [show m - i - 1 + 1 + (i + 1) = m + 1 by omega] at this
      have hsplit : Splits d a (probe (i + 1) (m - i - 1 + 1)) := ha _ _ (Or.inr rfl)
      refine formatAs_of_probe (i := i + 1) (r := (RtfReader.behind d a).pushed) (hgroup _) hsplit.loop_eq
        ⟨hat.shows, hat.seen⟩ hat hbody.2 hbody.2 ?_ ?_ ?_ ?_ (h _ hbal hsplit)
      · exact Nat.lt_succ_of_lt (Nat.lt_of_lt_of_le (Nat.succ_lt_succ hi) hm)
      · omega
      · exact Nat.succ_le_succ (by omega)
      · omega
    have hall : ∀ i < m, ∃ t, (RtfReader.behind d a).fStack[i]? = some t ∧
        (RtfReader.behind d a).formatAs t = (RtfReader.behind d a).format := by
      intro i
      induction i with
      | zero =>
        intro hi
        obtain ⟨t, t', ht, ht', heq⟩ := hstep 0 hi
        cases ht
        exact ⟨t', ht', heq.symm⟩
      | succ i ih =>
        intro hi
        obtain ⟨t, t', ht, ht', heq⟩ := hstep (i + 1) hi
        obtain ⟨u, hu, hformat⟩ := ih (Nat.lt_of_succ_lt hi)
        obtain rfl := Option.some.inj (hu.symm.trans ht)
        exact ⟨t', ht', heq.symm.trans hformat⟩
    intro t ht
    obtain ⟨i, hi, rfl⟩ := mem_take_iff_getElem.1 ht
    obtain ⟨u, hu, hformat⟩ := hall i (by omega)
    rw [getElem?_eq_getElem (by omega)] at hu
    cases hu
    exact hformat
  · intro h b hb hsplit
    have halike := alike_pushed hsound hbody hm h
    have hsame := halike.loop hb
    rw [← hgroup, ← hsplit.loop_eq] at hsame
    exact hsame.readText

theorem splits_of_turns {d : PWDocument} {a : List Byte} {r : RtfReader}
    (h : ∀ rest, Turns RtfReader.inGroup RtfReader.step (RtfReader.start d, a ++ rest) (r, rest)) :
    RtfReader.behind d a = r ∧ ∀ b, Splits d a b := by
  have hbehind : RtfReader.behind d a = r := by
    have hrun := Turns.run_eq eats_step (h [])
    rwa [append_nil] at hrun
  refine ⟨hbehind, fun b => ?_⟩
  unfold Splits
  rw [hbehind]
  exact h b

theorem turn_open {r : RtfReader} (hg : r.inGroup = true) (s : List Byte) :
    Turn RtfReader.inGroup RtfReader.step (r, ascii '\x7b' :: s) (r.pushed, s) :=
  ⟨cons_ne_nil _ _, hg, step_open r s⟩

theorem turn_char {r : RtfReader} (hr : r.InBody) {c : Byte} (hc : Inert c) (hbreak : ¬ (c = ascii '\n' ∨ c = ascii '\r'))
    (s : List Byte) : Turn RtfReader.inGroup RtfReader.step (r, c :: s) (r.emit [c.val], s) := by
  refine ⟨cons_ne_nil _ _, hr.1, ?_⟩
  rw [step_char s hc, if_neg hbreak, hr.2, if_neg Bool.false_ne_true]

theorem turn_bold {r : RtfReader} (hr : r.InBody) (s : List Byte) :
    Turn RtfReader.inGroup RtfReader.step (r, chars "\\b " ++ s) ({ r with fState := { r.fState with bold := true } }, s) := by
  refine ⟨cons_ne_nil _ _, hr.1, ?_⟩
  have hstep := step_word r (w := chars "b") (by decide) (all_eq_true.1 rfl) none (delimits_cons (c := ascii ' ') s (by decide))
  rw [controlWord_format hr.2 (by decide)] at hstep
  exact hstep

/-- A group that begins in the format of the text around it. -/
theorem ignorable_invisible_iff_plain :
    ((PWDocument.new noFamily).loadRTF
        (ascii '\x7b' :: (chars "x\x7by" ++ (chars "\x7b\\*\\g \x7bq\x7d\x7d" ++ chars "z\x7dw\x7d")))).map PWDocument.readText =
      ((PWDocument.new noFamily).loadRTF (ascii '\x7b' :: (chars "x\x7by" ++ chars "z\x7dw\x7d"))).map PWDocument.readText := by
  have hb : Balanced 2 (chars "z\x7dw\x7d") :=
    .char (by decide) (.close (.char (by decide) (.close (.done (by decide +kernel)))))
  have hg : Ignorable (chars "\x7b\\*\\g \x7bq\x7d\x7d") :=
    ⟨_, .starred (.control (by decide) (by decide) (.char (by decide) (.char (by decide) (.group (.char (by decide)
      (.close .last)))))), rfl⟩
  obtain ⟨hbehind, hsplits⟩ := splits_of_turns (d := PWDocument.new noFamily) (a := chars "x\x7by") (fun rest =>
    .head (turn_char ⟨rfl, rfl⟩ (c := ascii 'x') (by decide) (by decide) (chars "\x7by" ++ rest))
      (.head (turn_open rfl (chars "y" ++ rest))
        (.head (turn_char ⟨rfl, rfl⟩ (c := ascii 'y') (by decide) (by decide) rest) .refl)))
  refine (ignorable_invisible_iff (Reachable.wellFormed Relation.ReflTransGen.refl) (fun c rest _ => hsplits _) ?_ ?_ hg).2 ?_ _ hb
    (hsplits _)
  · rw [hbehind]
    exact ⟨rfl, rfl⟩
  · rw [hbehind]
    decide
  · rw [hbehind]
    rintro s (_ | ⟨_, _ | _⟩)
    rfl

/-- The group `\*\g` in a bold group: behind that the text stays bold.  And a group with an escaped brace: the text
behind it shows. -/
theorem ignorable_shows : (¬ ∀ (d : PWDocument) (a g b : List Byte) (m : Nat), d.WellFormed → (RtfReader.behind d a).InBody →
    m + 1 ≤ (RtfReader.behind d a).fDepth → Ignorable g → Balanced (m + 1) b → Splits d a b → Splits d a (g ++ b) →
      (d.loadRTF (ascii '\x7b' :: (a ++ (g ++ b)))).map PWDocument.readText =
        (d.loadRTF (ascii '\x7b' :: (a ++ b))).map PWDocument.readText) ∧
    ((PWDocument.new noFamily).loadRTF (chars "\x7b\x7b\\*\\g \\\x7dq\x7d\x7d")).map PWDocument.readText ≠
      ((PWDocument.new noFamily).loadRTF (chars "\x7b\x7d")).map PWDocument.readText := by
  refine ⟨fun h => ?_, by decide +kernel⟩
  have hg : Ignorable (chars "\x7b\\*\\g\x7d") :=
    ⟨_, .starred (.control (by decide) (by decide) (.char (by decide) .last)), rfl⟩
  have hb : Balanced 2 (chars "y\x7dz\x7d") :=
    .char (by decide) (.close (.char (by decide) (.close (.done (by decide +kernel)))))
  obtain ⟨hbehind, hsplits⟩ := splits_of_turns (d := PWDocument.new noFamily) (a := chars "\x7b\\b x") (fun rest =>
    .head (turn_open rfl (chars "\\b x" ++ rest))
      (.head (turn_bold ⟨rfl, rfl⟩ (chars "x" ++ rest))
        (.head (turn_char ⟨rfl, rfl⟩ (c := ascii 'x') (by decide) (by decide) rest) .refl)))
  have heq := h (PWDocument.new noFamily) (chars "\x7b\\b x") (chars "\x7b\\*\\g\x7d") (chars "y\x7dz\x7d") 1
    (Reachable.wellFormed Relation.ReflTransGen.refl) (hbehind ▸ ⟨rfl, rfl⟩) (hbehind ▸ by decide) hg hb (hsplits _) (hsplits _)
  exact absurd heq (by decide +kernel)

end Writer
end Prose
