import Prose.Scan
import Prose.WriterInvariants
import Prose.WriterReplace
/-!
# WriterRows — edits, paragraph by paragraph

The bytes of a document say what its paragraphs' texts are, since no text has a newline.  An edit inside one paragraph changes that
text, a removal of a text with a separator beside it takes the paragraph away.
-/
namespace Prose
namespace Writer

open Splice List

def texts (ps : List Para) : List (List Byte) := ps.map (·.text)

structure Lined (ps : List Para) : Prop where
  ne_nil : ps ≠ []
  oneLine : ∀ p ∈ ps, p.OneLine

theorem PWDocument.WellFormed.lined {d : PWDocument} (h : d.WellFormed) : Lined d.fParas := ⟨h.ne_nil, h.oneLine⟩

theorem Lined.edits {d d' : PWDocument} (h : Lined d.fParas) (he : Edits d d') : Lined d'.fParas :=
  ⟨Evolves.ne_nil he.evolves h.ne_nil, paraInv_oneLine.evolves he.evolves h.oneLine⟩

theorem Lined.insert {d : PWDocument} (h : Lined d.fParas) (offset : Nat) (t : List Byte) (fmt : Option PWCharFormat) :
    Lined (d.insert offset t fmt).fParas := h.edits (insert_edits d offset t fmt)

theorem Lined.remove {d : PWDocument} (h : Lined d.fParas) (offset length : Nat) : Lined (d.remove offset length).fParas :=
  h.edits (remove_edits d offset length)

/-! ## What the bytes say -/

def terminated (ls : List (List Byte)) : List Byte := ls.flatMap (· ++ [newline])

theorem terminated_append (ls ms : List (List Byte)) : terminated (ls ++ ms) = terminated ls ++ terminated ms := flatMap_append

theorem terminated_cons (l : List Byte) (ls : List (List Byte)) : terminated (l :: ls) = l ++ newline :: terminated ls := by
  unfold terminated
  rw [flatMap_cons, append_assoc, singleton_append]

theorem bytes_terminated (ps : List Para) : bytes ps = terminated (texts ps) := by
  unfold bytes terminated texts
  rw [flatMap_map]
  rfl

/-- **Lines are told apart by their newlines.** -/
theorem terminated_inj : ∀ {ls ms : List (List Byte)}, (∀ l ∈ ls, newline ∉ l) → (∀ m ∈ ms, newline ∉ m) →
    terminated ls = terminated ms → ls = ms
  | [], [], _, _, _ => rfl
  | [], m :: ms, _, _, h => by
    rw [terminated_cons] at h
    exact absurd h.symm (append_ne_nil_of_right_ne_nil _ (cons_ne_nil _ _))
  | l :: ls, [], _, _, h => by
    rw [terminated_cons] at h
    exact absurd h (append_ne_nil_of_right_ne_nil _ (cons_ne_nil _ _))
  | l :: ls, m :: ms, hl, hm, h => by
    rw [terminated_cons, terminated_cons] at h
    have hall {x : List Byte} (hx : newline ∉ x) : ∀ c ∈ x, (decide (c ≠ newline)) = true := fun c hc =>
      decide_eq_true fun he => hx (he ▸ hc)
    have hhead (x : List Byte) : ∀ c ∈ (newline :: x).head?, (decide (c ≠ newline)) = false := fun c hc => by
      cases hc
      exact decide_eq_false fun hn => hn rfl
    obtain ⟨rfl, htail⟩ := Scan.span_unique (hall (hl l mem_cons_self)) (hall (hm m mem_cons_self)) (hhead _) (hhead _) h
    rw [terminated_inj (fun x hx => hl x (mem_cons_of_mem _ hx)) (fun x hx => hm x (mem_cons_of_mem _ hx)) (List.cons.inj htail).2]

theorem Lined.texts_eq {ps : List Para} (h : Lined ps) {ts : List (List Byte)} (ht : ∀ t ∈ ts, newline ∉ t)
    (hb : bytes ps = terminated ts) : texts ps = ts := by
  refine terminated_inj (fun l hl => ?_) ht ((bytes_terminated ps).symm.trans hb)
  obtain ⟨p, hp, rfl⟩ := mem_map.1 hl
  exact h.oneLine p hp

theorem Lined.newline_notMem {ps : List Para} (h : Lined ps) {t : List Byte} (ht : t ∈ texts ps) : newline ∉ t := by
  obtain ⟨p, hp, rfl⟩ := mem_map.1 ht
  exact h.oneLine p hp

/-! ## Edits in one paragraph -/

theorem exists_mid {ps : List Para} {i : Nat} (hi : i < ps.length) : ∃ pre p post, ps = pre ++ p :: post ∧ pre.length = i :=
  ⟨ps.take i, ps[i], ps.drop (i + 1), by rw [← drop_eq_getElem_cons hi, take_append_drop],
    length_take_of_le (Nat.le_of_lt hi)⟩

theorem texts_append (ps qs : List Para) : texts (ps ++ qs) = texts ps ++ texts qs := map_append

theorem texts_cons (p : Para) (ps : List Para) : texts (p :: ps) = p.text :: texts ps := rfl

theorem length_texts (ps : List Para) : (texts ps).length = ps.length := length_map _

theorem docLength_mid (pre : List Para) (p : Para) (post : List Para) :
    docLength (pre ++ p :: post) + 1 = byteSpan pre + (p.text.length + 1 + byteSpan post) := by
  rw [docLength_add_one (append_ne_nil_of_right_ne_nil _ (cons_ne_nil _ _)), byteSpan_append, byteSpan_cons]

variable {d : PWDocument} {pre post : List Para} {p : Para}

theorem Lined.changed (hd : Lined d.fParas) (hps : d.fParas = pre ++ p :: post) {x : List Byte} (hx : newline ∈ x → newline ∈ p.text) :
    ∀ t ∈ texts pre ++ x :: texts post, newline ∉ t := fun t ht => by
  have hmem : ∀ t ∈ texts pre ++ p.text :: texts post, newline ∉ t := fun t ht =>
    hd.newline_notMem (by rw [hps, texts_append, texts_cons]; exact ht)
  rcases mem_append.1 ht with ht | ht
  · exact hmem t (mem_append_left _ ht)
  · rcases mem_cons.1 ht with rfl | ht
    · exact fun hn => hmem p.text (mem_append_right _ mem_cons_self) (hx hn)
    · exact hmem t (mem_append_right _ (mem_cons_of_mem _ ht))

/-- **A text put into a paragraph.** -/
theorem texts_insert (hd : Lined d.fParas) (hps : d.fParas = pre ++ p :: post) {k : Nat} (hk : k ≤ p.text.length) {t : List Byte}
    (ht : newline ∉ t) (fmt : Option PWCharFormat) :
    texts (d.insert (byteSpan pre + k) t fmt).fParas = texts pre ++ insertAt k t p.text :: texts post := by
  refine (hd.insert _ t fmt).texts_eq (hd.changed hps fun hn => ?_) ?_
  · rcases mem_append.1 hn with hn | hn
    · rcases mem_append.1 hn with hn | hn
      · exact mem_of_mem_take hn
      · exact absurd hn ht
    · exact mem_of_mem_drop hn
  · have hL := docLength_mid pre p post
    rw [← hps] at hL
    rw [bytes_insert hd.ne_nil, Nat.min_eq_left (by omega), hps, bytes_terminated, texts_append, texts_cons, terminated_append,
      terminated_append, terminated_cons, terminated_cons, ← length_bytes, bytes_terminated pre, insertAt_append_right,
      insertAt_append_left hk]

/-- **A span cut out of a paragraph.** -/
theorem texts_remove (hd : Lined d.fParas) (hps : d.fParas = pre ++ p :: post) {k n : Nat} (hk : k + n ≤ p.text.length) :
    texts (d.remove (byteSpan pre + k) n).fParas = texts pre ++ cut k (k + n) p.text :: texts post := by
  refine (hd.remove _ n).texts_eq (hd.changed hps fun hn => ?_) ?_
  · rcases mem_append.1 hn with hn | hn
    · exact mem_of_mem_take hn
    · exact mem_of_mem_drop hn
  · have hL := docLength_mid pre p post
    rw [← hps] at hL
    rw [remove_bytes hd.ne_nil (by omega), hps, bytes_terminated, texts_append, texts_cons, terminated_append, terminated_append,
      terminated_cons, terminated_cons, ← length_bytes, bytes_terminated pre, Nat.add_assoc, cut_append_right, cut_append (by omega),
      show k - p.text.length = 0 by omega, show k + n - p.text.length = 0 by omega, cut_self]

/-! ## Paragraphs taken away -/

theorem texts_of_cut (hd : Lined d.fParas) {i j : Nat} {ts : List (List Byte)} (hts : ∀ t ∈ ts, t ∈ texts d.fParas) (hij : i ≤ j)
    (hj : j ≤ docLength d.fParas) (hb : cut i j (bytes d.fParas) = terminated ts) : texts (d.remove i (j - i)).fParas = ts := by
  refine (hd.remove i (j - i)).texts_eq (fun t ht => hd.newline_notMem (hts t ht)) ?_
  rw [remove_bytes hd.ne_nil (by omega), Nat.add_sub_cancel' hij]
  exact hb

/-- **A text and the separator behind it.** -/
theorem texts_remove_behind (hd : Lined d.fParas) (hps : d.fParas = pre ++ p :: post) (hpost : post ≠ []) :
    texts (d.remove (byteSpan pre) (p.text.length + 1)).fParas = texts pre ++ texts post := by
  have hL := docLength_mid pre p post
  have hpos := byteSpan_pos hpost
  rw [← hps] at hL
  have h := @texts_of_cut d hd (byteSpan pre) (byteSpan pre + (p.text.length + 1)) (texts pre ++ texts post) (fun t ht => ?_) (by omega)
    (by omega) ?_
  · rwa [Nat.add_sub_cancel_left] at h
  · rw [hps, texts_append, texts_cons]
    rcases mem_append.1 ht with ht | ht
    · exact mem_append_left _ ht
    · exact mem_append_right _ (mem_cons_of_mem _ ht)
  · rw [hps, bytes_append, bytes_cons, terminated_append, ← bytes_terminated, ← bytes_terminated]
    unfold cut
    rw [← length_bytes pre, take_left, ← p.length_bytes, ← length_append, ← append_assoc, drop_left]

/-- **A text and the separator in front of it.** -/
theorem texts_remove_before {q : Para} (hd : Lined d.fParas) (hps : d.fParas = pre ++ q :: p :: post) :
    texts (d.remove (byteSpan pre + q.text.length) (p.text.length + 1)).fParas = texts pre ++ q.text :: texts post := by
  have hL := docLength_mid pre q (p :: post)
  rw [← hps, byteSpan_cons] at hL
  have h := @texts_of_cut d hd (byteSpan pre + q.text.length) (byteSpan pre + q.text.length + (p.text.length + 1))
    (texts pre ++ q.text :: texts post) (fun t ht => ?_) (by omega) (by omega) ?_
  · rwa [Nat.add_sub_cancel_left] at h
  · rw [hps, texts_append, texts_cons, texts_cons]
    rcases mem_append.1 ht with ht | ht
    · exact mem_append_left _ ht
    · rcases mem_cons.1 ht with rfl | ht
      · exact mem_append_right _ mem_cons_self
      · exact mem_append_right _ (mem_cons_of_mem _ (mem_cons_of_mem _ ht))
  · rw [hps, bytes_append, bytes_cons, bytes_cons, terminated_append, terminated_cons, ← bytes_terminated, ← bytes_terminated,
      ← length_bytes pre, Nat.add_assoc, cut_append_right]
    congr 1
    unfold cut Para.bytes
    have htake : (q.text ++ [newline] ++ (p.text ++ [newline] ++ bytes post)).take q.text.length = q.text := by
      rw [append_assoc, take_left]
    have hdrop : (q.text ++ [newline] ++ (p.text ++ [newline] ++ bytes post)).drop (q.text.length + (p.text.length + 1)) =
        newline :: bytes post := by
      have hlen : (q.text ++ [newline] ++ p.text).length = q.text.length + (p.text.length + 1) := by
        simp only [length_append, length_singleton]
        omega
      rw [← hlen, append_assoc p.text, ← append_assoc (q.text ++ [newline]), drop_left]
      rfl
    rw [htake, hdrop]

end Writer
end Prose
