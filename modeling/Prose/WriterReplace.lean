import Prose.Matching
import Prose.WriterBoard
/-!
# WriterReplace — every match of the scan, and no other

`ReplaceAll` finds the first match behind where it stands, cuts it out, puts the replacement in, and stands behind that.  The text behind
it is the old text still, so it comes to the matches of the leftmost scan of the old text one after the other.
-/
namespace Prose
namespace Writer

open Splice Matching List

theorem bytes_insert {d : PWDocument} (hne : d.fParas ≠ []) (offset : Nat) (t : List Byte) (fmt : Option PWCharFormat) :
    bytes (d.insert offset t fmt).fParas = insertAt (min offset (docLength d.fParas)) t (bytes d.fParas) := by
  have hplain : (plainSpots t).map Prod.fst = t := by
    rw [plainSpots, map_map]
    exact map_id t
  rw [← map_fst_board, board_insert hne, map_insertAt, map_fst_board, hplain]

theorem ne_nil_of_bytes {ps : List Para} (h : bytes ps ≠ []) : ps ≠ [] := fun hn => h (by rw [hn]; rfl)

theorem insert_ne_nil {d : PWDocument} (hne : d.fParas ≠ []) (offset : Nat) (t : List Byte) (fmt : Option PWCharFormat) :
    (d.insert offset t fmt).fParas ≠ [] := (board_grown hne (board_insert hne offset t fmt)).1

theorem length_plainText {ps : List Para} (hne : ps ≠ []) : (plainText ps).length = docLength ps := by
  have h := length_bytes ps
  rw [bytes_eq hne, length_append, length_singleton, ← docLength_add_one hne] at h
  exact Nat.succ.inj h

/-- **`Insert` in the plain text.** -/
theorem plainText_insert {d : PWDocument} (hne : d.fParas ≠ []) {offset : Nat} (ho : offset ≤ docLength d.fParas) (t : List Byte)
    (fmt : Option PWCharFormat) : plainText (d.insert offset t fmt).fParas = insertAt offset t (plainText d.fParas) := by
  have h := bytes_insert hne offset t fmt
  rw [Nat.min_eq_left ho, bytes_eq (insert_ne_nil hne offset t fmt), bytes_eq hne,
    insertAt_append_left (by rw [length_plainText hne]; exact ho)] at h
  exact append_cancel_right h

theorem remove_bytes {d : PWDocument} (hne : d.fParas ≠ []) {offset length : Nat} (hr : offset + length ≤ docLength d.fParas) :
    bytes (d.remove offset length).fParas = cut offset (offset + length) (bytes d.fParas) := by
  by_cases h0 : length = 0
  · rw [PWDocument.remove, if_pos (.inl h0), h0, Nat.add_zero, cut_self]
  · rw [remove_fParas (by omega) (by omega), clipLength_eq hr, bytes_removeParas hne d.fDefault hr]

theorem remove_ne_nil {d : PWDocument} (hne : d.fParas ≠ []) {offset length : Nat} (hr : offset + length ≤ docLength d.fParas) :
    (d.remove offset length).fParas ≠ [] := by
  have hL := docLength_add_one hne
  refine ne_nil_of_bytes (ne_nil_of_length_pos ?_)
  rw [remove_bytes hne hr, length_cut (by omega) (by rw [length_bytes]; omega), length_bytes]
  omega

/-- **`Remove` in the plain text.** -/
theorem plainText_remove {d : PWDocument} (hne : d.fParas ≠ []) {offset length : Nat} (hr : offset + length ≤ docLength d.fParas) :
    plainText (d.remove offset length).fParas = cut offset (offset + length) (plainText d.fParas) := by
  have hL := length_plainText hne
  have h := remove_bytes hne hr
  rw [bytes_eq (remove_ne_nil hne hr), bytes_eq hne, cut_append (by omega), show offset - (plainText d.fParas).length = 0 by omega,
    show offset + length - (plainText d.fParas).length = 0 by omega, cut_self] at h
  exact append_cancel_right h

/-! ## `FindNext` -/

theorem matchAt_length (cs : Bool) : ∀ {text find : List Byte}, matchAt cs text find = true → find.length ≤ text.length
  | _, [], _ => Nat.zero_le _
  | t :: text, n :: find, h => by
    unfold matchAt at h
    exact Nat.succ_le_succ (matchAt_length cs ((Bool.and_eq_true _ _).mp h).2)

theorem findFrom_first (find : List Byte) (cs : Bool) : ∀ (text : List Byte) (at' : Nat),
    findFrom find cs text at' = (first (fun ts => matchAt cs ts find) text).map (at' + ·)
  | [], _ => rfl
  | t :: text, at' => by
    unfold findFrom first
    split
    · rfl
    rw [findFrom_first find cs text (at' + 1), Option.map_map]
    congr 1
    funext i
    show at' + 1 + i = at' + (i + 1)
    omega

/-! ## The loop -/

/-- **The loop is through after as many turns as there are bytes**, and what was behind it is replaced. -/
theorem replaceLoop_spec {find : List Byte} (hfind : find ≠ []) (replace : List Byte) (cs : Bool) :
    ∀ (m : Nat) (d : PWDocument) (done rest : List Byte) (k : Nat), d.fParas ≠ [] → plainText d.fParas = done ++ rest → rest.length ≤ m →
      ∃ d' : PWDocument, d'.fParas ≠ [] ∧
        plainText d'.fParas = done ++ replaced (fun ts => matchAt cs ts find) find.length replace 0 rest ∧
        ∀ fuel, rest.length < fuel → replaceLoop find replace cs fuel d done.length k =
          (d', k + count (fun ts => matchAt cs ts find) find.length 0 rest) := by
  have hpos : 0 < find.length := length_pos_iff.2 hfind
  intro m
  induction m with
  | zero =>
    intro d done rest k hne htext hm
    obtain rfl := length_eq_zero_iff.1 (Nat.le_zero.1 hm)
    refine ⟨d, hne, htext, fun fuel hf => ?_⟩
    obtain ⟨fuel, rfl⟩ := Nat.exists_eq_add_of_lt hf
    unfold replaceLoop findNext
    rw [if_neg hfind, htext, drop_left, findFrom_first]
    rfl
  | succ m ih =>
    intro d done rest k hne htext hm
    have hfound (found : Option Nat) (hf : first (fun ts => matchAt cs ts find) rest = found) :
        findNext d.fParas find done.length cs false = found.map (done.length + ·) := by
      unfold findNext
      rw [if_neg hfind, htext, drop_left, findFrom_first, hf]
      cases found <;> rfl
    cases hfirst : first (fun ts => matchAt cs ts find) rest with
    | none =>
      obtain ⟨hsame, hzero⟩ := replaced_none (n := find.length) replace hfirst
      refine ⟨d, hne, by rw [hsame, htext], fun fuel hf => ?_⟩
      obtain ⟨fuel, rfl⟩ := Nat.exists_eq_add_of_lt hf
      unfold replaceLoop
      rw [hfound none hfirst, hzero]
      rfl
    | some i =>
      obtain ⟨htake, hcount⟩ := replaced_first hpos replace hfirst
      have hle : i + find.length ≤ rest.length := first_le (fun ts h => matchAt_length cs h) hfirst
      -- the match is cut out, and the replacement put in its place
      have hlen : done.length + rest.length = docLength d.fParas := by
        rw [← length_plainText hne, htext, length_append]
      have hr : done.length + i + find.length ≤ docLength d.fParas := by omega
      have hne₁ := remove_ne_nil hne hr
      have htext₁ : plainText (d.remove (done.length + i) find.length).fParas =
          done ++ (rest.take i ++ rest.drop (i + find.length)) := by
        rw [plainText_remove hne hr, htext, Nat.add_assoc, cut_append_right]
        rfl
      have hsplit : (done ++ rest.take i).length = done.length + i := by
        rw [length_append, length_take]
        omega
      have hlen₁ : done.length + i ≤ docLength (d.remove (done.length + i) find.length).fParas := by
        rw [← length_plainText hne₁, htext₁, ← append_assoc, length_append, hsplit]
        exact Nat.le_add_right _ _
      have htext₂ : plainText ((d.remove (done.length + i) find.length).insert (done.length + i) replace none).fParas =
          (done ++ rest.take i ++ replace) ++ rest.drop (i + find.length) := by
        rw [plainText_insert hne₁ hlen₁, htext₁, ← append_assoc, insertAt_length hsplit, append_assoc (done ++ _)]
      have hshort : (rest.drop (i + find.length)).length < rest.length := by
        rw [length_drop]
        omega
      obtain ⟨d', hne', htext', hloop⟩ := ih _ (done ++ rest.take i ++ replace) (rest.drop (i + find.length)) (k + 1)
        (insert_ne_nil hne₁ _ replace none) htext₂ (by omega)
      refine ⟨d', hne', ?_, fun fuel hf => ?_⟩
      · rw [htext', htake]
        simp only [append_assoc]
      · obtain ⟨fuel, rfl⟩ := Nat.exists_eq_add_of_lt hf
        have hat : (done ++ rest.take i ++ replace).length = done.length + i + replace.length := by
          rw [length_append, hsplit]
        have hmore := hloop (rest.length + fuel) (by omega)
        rw [hat] at hmore
        unfold replaceLoop
        rw [hfound _ hfirst, hcount]
        show replaceLoop find replace cs (rest.length + fuel) _ (done.length + i + replace.length) (k + 1) = _
        rw [hmore, Nat.add_right_comm, Nat.add_assoc]

/-- **`ReplaceAll` replaces the matches of the leftmost scan**: its loop comes to an end, after it the plain text is the old one with those
matches replaced, and it answers how many they are. -/
theorem replaceAll_replaces {d : PWDocument} (hne : d.fParas ≠ []) {find replace : List Byte} (hfind : find ≠ []) (hdiff : find ≠ replace)
    (cs : Bool) : ∃ d' n, (∀ fuel, docLength d.fParas < fuel → replaceLoop find replace cs fuel d 0 0 = (d', n)) ∧
      d.replaceAll find replace cs = (d', some n) ∧
      plainText d'.fParas = replaced (fun ts => matchAt cs ts find) find.length replace 0 (plainText d.fParas) ∧
      n = count (fun ts => matchAt cs ts find) find.length 0 (plainText d.fParas) := by
  obtain ⟨d', -, htext, hloop⟩ := replaceLoop_spec hfind replace cs _ d [] (plainText d.fParas) 0 hne rfl (Nat.le_refl _)
  rw [length_plainText hne] at hloop
  refine ⟨d', _, hloop, ?_, htext, Nat.zero_add _⟩
  unfold PWDocument.replaceAll
  rw [if_neg (not_or.2 ⟨hfind, hdiff⟩)]
  have h := hloop (docLength d.fParas + 1) (Nat.lt_succ_self _)
  rw [length_nil] at h
  rw [h]

/-- The needle over a separator, the replacement with the needle in it. -/
def twoLines : PWDocument := (PWDocument.new noFamily).insert 0 [byteA, newline, byteA, newline, byteA] none

theorem replaceAll_replaces_twoLines : ∃ d' n,
    (∀ fuel, docLength twoLines.fParas < fuel → replaceLoop [byteA, newline] [byteA, newline, byteA, newline] true fuel twoLines 0 0 = (d', n)) ∧
      twoLines.replaceAll [byteA, newline] [byteA, newline, byteA, newline] true = (d', some n) ∧
      plainText d'.fParas = replaced (fun ts => matchAt true ts [byteA, newline]) 2 [byteA, newline, byteA, newline] 0 (plainText twoLines.fParas) ∧
      n = count (fun ts => matchAt true ts [byteA, newline]) 2 0 (plainText twoLines.fParas) :=
  replaceAll_replaces (by decide) (by decide) (by decide) true

example : (twoLines.replaceAll [byteA, newline] [byteA, newline, byteA, newline] true).2 = some 2 := by decide

end Writer
end Prose
