import Prose.WriterRtfBody
/-!
# WriterRtfTables — reading back the tables the writer wrote

The header of `PW_WriteRTF`: the words in front, the font table, the colour table.  A family name stands in the font
table as it is, so it must not hold a character that RTF gives a meaning (`Plain`).
-/
namespace Prose
namespace Writer

open Scan List

attribute [local irreducible] int32

def Plain (name : List Byte) : Prop := ∀ c ∈ name, c ≠ ascii '\x7b' ∧ c ≠ ascii '\x7d' ∧ c ≠ ascii '\\'

instance (name : List Byte) : Decidable (Plain name) := inferInstanceAs (Decidable (∀ c ∈ name, _))

theorem loop_step {r : RtfReader} (hg : r.inGroup = true) (c : Byte) (s : List Byte) :
    r.loop (c :: s) = (r.step (c :: s)).1.loop (r.step (c :: s)).2 := run_step eats_step (cons_ne_nil c s) hg

theorem run_word {r : RtfReader} (hg : r.inGroup = true) {w : List Byte} (hne : w ≠ []) (hw : ∀ c ∈ w, isAlpha c)
    (param : Option Int) {x : List Byte} (hx : Delimits x) :
    r.loop (ascii '\\' :: (w ++ (paramText param ++ x))) =
      (r.controlWord false w (param.map int32) (skipSpace x)).1.loop
        (r.controlWord false w (param.map int32) (skipSpace x)).2 := by
  rw [loop_step hg, step_word r hne hw param hx]

theorem reads_front {r : RtfReader} (hr : r.InBody) :
    Reads RtfReader.inGroup RtfReader.step r (chars "\\rtf1\\ansi\\deff0\n") r := by
  intro rest
  have h1 := run_word hr.1 (w := chars "rtf") (by decide) (all_eq_true.1 rfl) (some 1)
    (delimits_cons (c := ascii '\\') (chars "ansi\\deff0\n" ++ rest) (by decide))
  rw [controlWord_format hr.2 (by decide)] at h1
  have h2 := run_word hr.1 (w := chars "ansi") (by decide) (all_eq_true.1 rfl) none
    (delimits_cons (c := ascii '\\') (chars "deff0\n" ++ rest) (by decide))
  rw [controlWord_format hr.2 (by decide)] at h2
  have h3 := run_word hr.1 (w := chars "deff") (by decide) (all_eq_true.1 rfl) (some 0)
    (delimits_cons (c := ascii '\n') rest (by decide))
  rw [controlWord_format hr.2 (by decide)] at h3
  refine h1.trans (h2.trans (h3.trans ?_))
  refine (loop_step hr.1 _ _).trans ?_
  rw [step_char rest (by decide), if_pos (Or.inl rfl)]
  rfl

/-! ## The font table -/

/-- The fonts and the name being read, behind some characters of the name of `font`. -/
def readName (font : Int) : SortedMap Int (List Byte) × List Byte → List Byte → SortedMap Int (List Byte) × List Byte
  | t, []     => t
  | t, c :: s =>
    if c = ascii '\n' ∨ c = ascii '\r' then readName font t s
    else if c = ascii ';' then
      readName font (if font ≥ 0 ∧ t.2 ≠ [] then t.1.set font (trimmed t.2) else t.1, []) s
    else readName font (t.1, t.2 ++ [c]) s

/-- The fonts behind the entries of `names`, the first of them numbered `i`. -/
def readFonts : Nat → SortedMap Int (List Byte) → List FontFamily → SortedMap Int (List Byte)
  | _, fonts, []          => fonts
  | i, fonts, name :: names => readFonts (i + 1) (readName (int32 i) (fonts, []) (name.val ++ [ascii ';'])).1 names

structure RtfReader.InFonts (r : RtfReader) : Prop where
  inGroup : r.inGroup = true
  font : r.fInFontTable = true
  color : r.fInColorTable = false

theorem RtfReader.InFonts.inTable {r : RtfReader} (h : r.InFonts) : r.inTable = true := by
  unfold RtfReader.inTable
  rw [h.font]
  rfl

theorem RtfReader.InFonts.semicolon {r : RtfReader} (h : r.InFonts) : r.charInTable (ascii ';') =
    { r with
      fFonts := if r.fPendingFont ≥ 0 ∧ r.fCurrentName ≠ [] then r.fFonts.set r.fPendingFont (trimmed r.fCurrentName)
        else r.fFonts
      fCurrentName := [] } := by
  unfold RtfReader.charInTable RtfReader.storeName
  rw [if_pos rfl, if_pos h.font]
  split_ifs with hname
  · simp [h.color]
  · simp [h.color]

theorem RtfReader.InFonts.letter {r : RtfReader} (h : r.InFonts) {c : Byte} (hc : c ≠ ascii ';') :
    r.charInTable c = { r with fCurrentName := r.fCurrentName ++ [c] } := by
  unfold RtfReader.charInTable
  rw [if_neg hc, if_pos h.font]

/-- **A name in the font table** is read character by character. -/
theorem reads_name : ∀ {name : List Byte} {r : RtfReader}, Plain name → r.InFonts →
    Reads RtfReader.inGroup RtfReader.step r name
      { r with
        fFonts := (readName r.fPendingFont (r.fFonts, r.fCurrentName) name).1
        fCurrentName := (readName r.fPendingFont (r.fFonts, r.fCurrentName) name).2 }
  | [], r, _, _ => Reads.nil r
  | c :: name, r, hp, h => by
    obtain ⟨h1, h2, h3⟩ := hp c mem_cons_self
    have hp' : Plain name := fun c hc => hp c (mem_cons_of_mem _ hc)
    have hturn : ∀ rest, r.step ([c] ++ rest) = if c = ascii '\n' ∨ c = ascii '\r' then (r, rest)
        else (r.charInTable c, rest) := fun rest => by
      rw [singleton_append, step_char rest ⟨h1, h2, h3⟩, h.inTable, if_pos rfl]
    rw [← singleton_append, singleton_append, readName]
    by_cases hbreak : c = ascii '\n' ∨ c = ascii '\r'
    · have hread : Reads RtfReader.inGroup RtfReader.step r [c] r :=
        Reads.of_step eats_step (cons_ne_nil _ _) h.inGroup (fun rest => by rw [hturn, if_pos hbreak])
      rw [if_pos hbreak]
      exact hread.append (reads_name hp' h)
    have hread : Reads RtfReader.inGroup RtfReader.step r [c] (r.charInTable c) :=
      Reads.of_step eats_step (cons_ne_nil _ _) h.inGroup (fun rest => by rw [hturn, if_neg hbreak])
    rw [if_neg hbreak]
    by_cases hsemi : c = ascii ';'
    · rw [if_pos hsemi]
      subst hsemi
      rw [h.semicolon] at hread
      exact hread.append (reads_name hp' ⟨h.inGroup, h.font, h.color⟩)
    · rw [if_neg hsemi]
      rw [h.letter hsemi] at hread
      exact hread.append (reads_name hp' ⟨h.inGroup, h.font, h.color⟩)

theorem reads_open {r : RtfReader} (hg : r.inGroup = true) :
    Reads RtfReader.inGroup RtfReader.step r [ascii '\x7b']
      { r with fDepth := r.fDepth + 1, fStack := r.fState :: r.fStack } :=
  Reads.of_step eats_step (cons_ne_nil _ _) hg (fun rest => by rw [singleton_append, RtfReader.step, if_pos rfl])

theorem reads_close {r : RtfReader} (hg : r.inGroup = true) :
    Reads RtfReader.inGroup RtfReader.step r [ascii '\x7d'] r.closeGroup :=
  Reads.of_step eats_step (cons_ne_nil _ _) hg (fun rest => by
    rw [singleton_append, RtfReader.step, if_neg (by decide), if_pos rfl])

theorem run_tableWord {r : RtfReader} (hg : r.inGroup = true) (ht : r.inTable = true) {w : List Byte} (hne : w ≠ [])
    (hw : ∀ c ∈ w, isAlpha c) (hfont : w ≠ chars "fonttbl") (hcolor : w ≠ chars "colortbl") (param : Option Int)
    {x : List Byte} (hx : Delimits x) :
    r.loop (ascii '\\' :: (w ++ (paramText param ++ x))) = (r.tableControl w (param.map int32)).loop (skipSpace x) := by
  rw [run_word hg hne hw param hx]
  unfold RtfReader.controlWord
  rw [if_neg Bool.false_ne_true, if_neg hfont, if_neg hcolor, if_pos ht]

/-- The reader in front of the name of font `i`. -/
def RtfReader.inEntry (r : RtfReader) (i : Nat) : RtfReader :=
  { r with
    fDepth := r.fDepth + 1
    fStack := r.fState :: r.fStack
    fPendingFont := int32 i
    fCurrentName := [] }

theorem reads_entryWord {r : RtfReader} (h : r.InFonts) (hname : r.fCurrentName = []) (i : Nat) :
    Reads RtfReader.inGroup RtfReader.step { r with fDepth := r.fDepth + 1, fStack := r.fState :: r.fStack }
      (ascii '\\' :: (chars "f" ++ (paramText (some i) ++ chars " "))) (r.inEntry i) := by
  intro rest
  have hrun := run_tableWord (r := { r with fDepth := r.fDepth + 1, fStack := r.fState :: r.fStack }) rfl h.inTable
    (w := chars "f") (by decide) (all_eq_true.1 rfl) (by decide) (by decide) (some i)
    (delimits_cons (c := ascii ' ') rest (by decide))
  have hcontrol : RtfReader.tableControl { r with fDepth := r.fDepth + 1, fStack := r.fState :: r.fStack } (chars "f")
      (some (int32 i)) = r.inEntry i := by
    unfold RtfReader.tableControl RtfReader.storeName
    dsimp only
    rw [if_pos ⟨rfl, h.font⟩, if_neg (fun hn => hn.2 hname)]
    rfl
  rw [Option.map_some, hcontrol] at hrun
  rw [cons_append, append_assoc, append_assoc]
  exact hrun

/-- **An entry of the font table.** -/
theorem reads_fontEntry {r : RtfReader} (h : r.InFonts) (hname : r.fCurrentName = []) (hdepth : r.fTableDepth ≤ r.fDepth)
    (i : Nat) {name : List Byte} (hp : Plain name) :
    Reads RtfReader.inGroup RtfReader.step r (chars "\x7b\\f" ++ decimal i ++ chars " " ++ name ++ chars ";\x7d")
      { r with
        fFonts := (readName (int32 i) (r.fFonts, []) (name ++ [ascii ';'])).1
        fCurrentName := (readName (int32 i) (r.fFonts, []) (name ++ [ascii ';'])).2
        fPendingFont := int32 i } := by
  have hentry : (r.inEntry i).InFonts := ⟨rfl, h.font, h.color⟩
  have hletters : Plain (name ++ [ascii ';']) := by
    intro c hc
    rcases mem_append.1 hc with hc | hc
    · exact hp c hc
    · rw [mem_singleton.1 hc]
      decide
  have hreadName := reads_name hletters hentry
  have hclose : RtfReader.closeGroup
      { r.inEntry i with
        fFonts := (readName (int32 i) (r.fFonts, []) (name ++ [ascii ';'])).1
        fCurrentName := (readName (int32 i) (r.fFonts, []) (name ++ [ascii ';'])).2 } =
      { r with
        fFonts := (readName (int32 i) (r.fFonts, []) (name ++ [ascii ';'])).1
        fCurrentName := (readName (int32 i) (r.fFonts, []) (name ++ [ascii ';'])).2
        fPendingFont := int32 i } := by
    unfold RtfReader.closeGroup RtfReader.popState RtfReader.inEntry
    dsimp only
    rw [Nat.add_sub_cancel, if_neg (Nat.not_lt.2 hdepth)]
  have htext : chars "\x7b\\f" ++ decimal i ++ chars " " ++ name ++ chars ";\x7d" = [ascii '\x7b'] ++
      (ascii '\\' :: (chars "f" ++ (paramText (some i) ++ chars " ")) ++ (name ++ [ascii ';'] ++ [ascii '\x7d'])) := by
    simp only [append_assoc, cons_append]
    rfl
  rw [htext, ← hclose]
  exact (reads_open h.inGroup).append ((reads_entryWord h hname i).append (hreadName.append (reads_close rfl)))

theorem readName_append (font : Int) : ∀ (t : SortedMap Int (List Byte) × List Byte) (a b : List Byte),
    readName font t (a ++ b) = readName font (readName font t a) b
  | _, [], _ => rfl
  | t, c :: a, b => by
    rw [cons_append, readName, readName]
    split_ifs <;> exact readName_append font _ a b

theorem readName_entry (font : Int) (fonts : SortedMap Int (List Byte)) (name : List Byte) :
    (readName font (fonts, []) (name ++ [ascii ';'])).2 = [] := by
  rw [readName_append, readName, if_neg (by decide), if_pos rfl]
  rfl

/-- **The entries of the font table.** -/
theorem reads_fontEntries : ∀ (names : List FontFamily) {r : RtfReader} (i : Nat), r.InFonts → r.fCurrentName = [] →
    r.fTableDepth ≤ r.fDepth → (∀ name ∈ names, Plain name.val) → ∃ font,
      Reads RtfReader.inGroup RtfReader.step r (fontEntries i names)
        { r with fFonts := readFonts i r.fFonts names, fPendingFont := font }
  | [], r, i, _, _, _, _ => ⟨r.fPendingFont, Reads.nil r⟩
  | name :: names, r, i, h, hname, hdepth, hp => by
    have hentry := reads_fontEntry h hname hdepth i (hp name mem_cons_self)
    rw [readName_entry] at hentry
    obtain ⟨font, hrest⟩ := reads_fontEntries names
      (r := { r with
        fFonts := (readName (int32 i) (r.fFonts, []) (name.val ++ [ascii ';'])).1
        fCurrentName := []
        fPendingFont := int32 i }) (i + 1) ⟨h.inGroup, h.font, h.color⟩ rfl hdepth
      (fun n hn => hp n (mem_cons_of_mem _ hn))
    refine ⟨font, ?_⟩
    have hkeep : { r with fFonts := readFonts i r.fFonts (name :: names), fPendingFont := font } =
        { r with fFonts := readFonts i r.fFonts (name :: names), fCurrentName := [], fPendingFont := font } := by
      rw [← hname]
    rw [hkeep]
    exact hentry.append hrest

/-- The reader behind the closing brace of a table's group and the line break after it. -/
theorem reads_tableEnd {r r' : RtfReader} (hg : r.inGroup = true) (hclose : r.closeGroup = r') (hg' : r'.inGroup = true) :
    Reads RtfReader.inGroup RtfReader.step r (chars "\x7d\n") r' := by
  have hbreak : Reads RtfReader.inGroup RtfReader.step r' [ascii '\n'] r' :=
    Reads.of_step eats_step (cons_ne_nil _ _) hg' (fun rest => by
      rw [singleton_append, step_char rest (by decide), if_pos (Or.inl rfl)])
  have hread := reads_close hg
  rw [hclose] at hread
  exact hread.append hbreak

def RtfReader.start (d : PWDocument) : RtfReader := { fDoc := d, fDefault := d.fDefault, fDepth := 1 }

theorem delimits_fontEntries (i : Nat) (name : FontFamily) (names : List FontFamily) (x : List Byte) :
    Delimits (fontEntries i (name :: names) ++ x) ∧
      skipSpace (fontEntries i (name :: names) ++ x) = fontEntries i (name :: names) ++ x :=
  ⟨delimits_cons _ (by decide), rfl⟩

/-- **The font table.** -/
theorem reads_fontTable (d : PWDocument) (name : FontFamily) (names : List FontFamily)
    (hp : ∀ n ∈ name :: names, Plain n.val) : ∃ font,
      Reads RtfReader.inGroup RtfReader.step (RtfReader.start d)
        (chars "\x7b\\fonttbl" ++ fontEntries 0 (name :: names) ++ chars "\x7d\n")
        { RtfReader.start d with fFonts := readFonts 0 SortedMap.empty (name :: names), fPendingFont := font } := by
  obtain ⟨font, hentries⟩ := reads_fontEntries (name :: names)
    (r := { RtfReader.start d with fDepth := 2, fStack := [{}], fInFontTable := true, fTableDepth := 2 })
    0 ⟨rfl, rfl, rfl⟩ rfl (Nat.le_refl _) hp
  have hend := reads_tableEnd
    (r := { RtfReader.start d with
      fDepth := 2
      fStack := [{}]
      fInFontTable := true
      fTableDepth := 2
      fFonts := readFonts 0 SortedMap.empty (name :: names)
      fPendingFont := font }) rfl rfl rfl
  refine ⟨font, fun rest => ?_⟩
  obtain ⟨hdelim, hskip⟩ := delimits_fontEntries 0 name names (chars "\x7d\n" ++ rest)
  have hopen : (RtfReader.start d).loop (ascii '\x7b' :: (ascii '\\' :: (chars "fonttbl" ++ (paramText none ++
      (fontEntries 0 (name :: names) ++ (chars "\x7d\n" ++ rest)))))) = _ := reads_open rfl _
  have hword := run_word (r := { RtfReader.start d with fDepth := 2, fStack := [{}] }) rfl (w := chars "fonttbl")
    (by decide) (all_eq_true.1 rfl) none hdelim
  rw [hskip] at hword
  have hrest := (hentries.append hend) rest
  rw [append_assoc] at hrest
  rw [append_assoc, append_assoc]
  exact hopen.trans (hword.trans hrest)

/-! ## The colour table -/

theorem toChar_int32 (b : UInt8) : toChar (int32 b.toNat) = b := by
  have hb : b.toNat < 256 := b.toNat_lt
  have hmod : ((b.toNat : Int) % 256).toNat = b.toNat := by omega
  rw [int32_eq (by omega) (by omega), toChar, hmod, UInt8.ofNat_toNat]

structure RtfReader.InColors (r : RtfReader) : Prop where
  inGroup : r.inGroup = true
  font : r.fInFontTable = false
  color : r.fInColorTable = true
  auto : r.fSeenAutoColor = true
  name : r.fCurrentName = []
  pending : r.fPendingColor = ⟨0, 0, 0, 255⟩

theorem RtfReader.InColors.inTable {r : RtfReader} (h : r.InColors) : r.inTable = true := by
  unfold RtfReader.inTable
  rw [h.color, Bool.or_true]

theorem tableControl_red (r : RtfReader) (n : Int) : r.tableControl (chars "red") (some n) =
    { r with fPendingColor := { r.fPendingColor with red := toChar n } } := by
  unfold RtfReader.tableControl
  dsimp only
  rw [if_neg (fun hw => absurd hw.1 (by decide)), if_pos rfl]

theorem tableControl_green (r : RtfReader) (n : Int) : r.tableControl (chars "green") (some n) =
    { r with fPendingColor := { r.fPendingColor with green := toChar n } } := by
  unfold RtfReader.tableControl
  dsimp only
  rw [if_neg (fun hw => absurd hw.1 (by decide)), if_neg (by decide), if_pos rfl]

theorem tableControl_blue (r : RtfReader) (n : Int) : r.tableControl (chars "blue") (some n) =
    { r with fPendingColor := { r.fPendingColor with blue := toChar n } } := by
  unfold RtfReader.tableControl
  dsimp only
  rw [if_neg (fun hw => absurd hw.1 (by decide)), if_neg (by decide), if_neg (by decide), if_pos rfl]

theorem charInTable_color {r : RtfReader} (hf : r.fInFontTable = false) (hc : r.fInColorTable = true)
    (ha : r.fSeenAutoColor = true) : r.charInTable (ascii ';') =
      { r with fColors := r.fColors ++ [r.fPendingColor], fPendingColor := ⟨0, 0, 0, 255⟩, fCurrentName := [] } := by
  simp [RtfReader.charInTable, hf, hc, ha]

theorem loop_semicolon {r : RtfReader} (hg : r.inGroup = true) (ht : r.inTable = true) (s : List Byte) :
    r.loop (ascii ';' :: s) = (r.charInTable (ascii ';')).loop s := by
  rw [loop_step hg, step_char s (by decide), if_neg (by decide), if_pos ht]

/-- **An entry of the colour table.** -/
theorem reads_colorEntry {r : RtfReader} (h : r.InColors) (c : RgbColor) :
    Reads RtfReader.inGroup RtfReader.step r (colorEntry c)
      { r with fColors := r.fColors ++ [{ c with alpha := 255 }] } := by
  intro rest
  have hred := run_tableWord h.inGroup h.inTable (w := chars "red") (by decide) (all_eq_true.1 rfl) (by decide) (by decide)
    (some c.red.toNat) (delimits_cons (c := ascii '\\') (chars "green" ++ (paramText (some c.green.toNat) ++
      (ascii '\\' :: (chars "blue" ++ (paramText (some c.blue.toNat) ++ ascii ';' :: rest))))) (by decide))
  rw [Option.map_some, tableControl_red, toChar_int32, h.pending] at hred
  have hgreen := run_tableWord (r := { r with fPendingColor := { r.fPendingColor with red := c.red } }) h.inGroup
    h.inTable (w := chars "green") (by decide) (all_eq_true.1 rfl) (by decide) (by decide) (some c.green.toNat)
    (delimits_cons (c := ascii '\\') (chars "blue" ++ (paramText (some c.blue.toNat) ++ ascii ';' :: rest)) (by decide))
  rw [Option.map_some, tableControl_green, toChar_int32, h.pending] at hgreen
  have hblue := run_tableWord
    (r := { r with fPendingColor := { r.fPendingColor with red := c.red, green := c.green } }) h.inGroup h.inTable
    (w := chars "blue") (by decide) (all_eq_true.1 rfl) (by decide) (by decide) (some c.blue.toNat)
    (delimits_cons (c := ascii ';') rest (by decide))
  rw [Option.map_some, tableControl_blue, toChar_int32, h.pending] at hblue
  have hchar := loop_semicolon (r := { r with fPendingColor := { c with alpha := 255 } }) h.inGroup h.inTable rest
  have hsemi := charInTable_color (r := { r with fPendingColor := { c with alpha := 255 } }) h.font h.color h.auto
  rw [hsemi, ← h.name, ← h.pending] at hchar
  have htext : colorEntry c ++ rest = ascii '\\' :: (chars "red" ++ (paramText (some c.red.toNat) ++
      (ascii '\\' :: (chars "green" ++ (paramText (some c.green.toNat) ++
        (ascii '\\' :: (chars "blue" ++ (paramText (some c.blue.toNat) ++ ascii ';' :: rest)))))))) := by
    unfold colorEntry
    simp only [append_assoc]
    rfl
  rw [htext]
  exact hred.trans (hgreen.trans (hblue.trans hchar))

theorem reads_colorEntries : ∀ (colors : List RgbColor) {r : RtfReader}, r.InColors →
    Reads RtfReader.inGroup RtfReader.step r (colors.flatMap colorEntry)
      { r with fColors := r.fColors ++ colors.map (fun c => { c with alpha := 255 }) }
  | [], r, _ => by
    rw [map_nil, append_nil]
    exact Reads.nil r
  | c :: colors, r, h => by
    have hrest := reads_colorEntries colors
      (r := { r with fColors := r.fColors ++ [{ c with alpha := 255 }] })
      ⟨h.inGroup, h.font, h.color, h.auto, h.name, h.pending⟩
    rw [append_assoc] at hrest
    exact (reads_colorEntry h c).append hrest

/-- **The colour table.** -/
theorem reads_colorTable (d : PWDocument) (fonts : SortedMap Int (List Byte)) (font : Int) (colors : List RgbColor) :
    Reads RtfReader.inGroup RtfReader.step { RtfReader.start d with fFonts := fonts, fPendingFont := font }
      (chars "\x7b\\colortbl;" ++ colors.flatMap colorEntry ++ chars "\x7d\n")
      { RtfReader.start d with
        fFonts := fonts
        fPendingFont := font
        fSeenAutoColor := true
        fColors := colors.map (fun c => { c with alpha := 255 }) } := by
  have hentries := reads_colorEntries colors
    (r := { RtfReader.start d with
      fFonts := fonts
      fPendingFont := font
      fDepth := 2
      fStack := [{}]
      fInColorTable := true
      fSeenAutoColor := true
      fTableDepth := 2 }) ⟨rfl, rfl, rfl, rfl, rfl, rfl⟩
  have hend := reads_tableEnd
    (r := { RtfReader.start d with
      fFonts := fonts
      fPendingFont := font
      fDepth := 2
      fStack := [{}]
      fInColorTable := true
      fSeenAutoColor := true
      fTableDepth := 2
      fColors := colors.map (fun c => { c with alpha := 255 }) }) rfl rfl rfl
  intro rest
  have hopen : RtfReader.loop { RtfReader.start d with fFonts := fonts, fPendingFont := font }
      (ascii '\x7b' :: (ascii '\\' :: (chars "colortbl" ++ (paramText none ++ (ascii ';' ::
        (colors.flatMap colorEntry ++ (chars "\x7d\n" ++ rest))))))) = _ := reads_open rfl _
  have hword := run_word (r := { RtfReader.start d with fFonts := fonts, fPendingFont := font, fDepth := 2, fStack := [{}] })
    rfl (w := chars "colortbl") (by decide) (all_eq_true.1 rfl) none
    (delimits_cons (c := ascii ';') (colors.flatMap colorEntry ++ (chars "\x7d\n" ++ rest)) (by decide))
  have hauto := loop_semicolon (r := { RtfReader.start d with
      fFonts := fonts
      fPendingFont := font
      fDepth := 2
      fStack := [{}]
      fInColorTable := true
      fTableDepth := 2 }) rfl rfl (colors.flatMap colorEntry ++ (chars "\x7d\n" ++ rest))
  have hrest := (hentries.append hend) rest
  rw [append_assoc] at hrest
  rw [append_assoc, append_assoc]
  exact hopen.trans (hword.trans (hauto.trans hrest))

theorem foldl_grows {α β : Type} {f : List α → β → List α} (hf : ∀ l b, l <+: f l b) :
    ∀ (bs : List β) (l : List α), l <+: bs.foldl f l
  | [], l      => prefix_refl l
  | b :: bs, l => (hf l b).trans (foldl_grows hf bs (f l b))

theorem exists_fontNames (d : PWDocument) : ∃ names, d.fontNames = d.fDefault.family :: names := by
  obtain ⟨names, hnames⟩ := foldl_grows (f := fun names (r : PWRun) =>
    if (d.resolve r.format).family ∈ names then names else names ++ [(d.resolve r.format).family])
    (fun l r => by
      split_ifs
      · exact prefix_refl l
      · exact prefix_append l _) d.allRuns [d.fDefault.family]
  exact ⟨names, hnames.symm⟩

/-- **The header read back**: the fonts and the colours of the document. -/
theorem reads_header (d doc : PWDocument) (hp : ∀ n ∈ d.fontNames, Plain n.val) : ∃ font,
    Reads RtfReader.inGroup RtfReader.step (RtfReader.start doc)
      (chars "\\rtf1\\ansi\\deff0\n" ++
        (chars "\x7b\\fonttbl" ++ fontEntries 0 d.fontNames ++ chars "\x7d\n") ++
        (chars "\x7b\\colortbl;" ++ d.colors.flatMap colorEntry ++ chars "\x7d\n"))
      { RtfReader.start doc with
        fFonts := readFonts 0 SortedMap.empty d.fontNames
        fPendingFont := font
        fSeenAutoColor := true
        fColors := d.colors.map (fun c => { c with alpha := 255 }) } := by
  obtain ⟨names, hnames⟩ := exists_fontNames d
  rw [hnames] at hp ⊢
  obtain ⟨font, hfonts⟩ := reads_fontTable doc d.fDefault.family names hp
  have hstart : (RtfReader.start doc).InBody := ⟨rfl, rfl⟩
  exact ⟨font, ((reads_front hstart).append hfonts).append (reads_colorTable doc _ font d.colors)⟩

end Writer
end Prose
