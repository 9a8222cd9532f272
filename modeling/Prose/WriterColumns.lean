import Mathlib.Data.List.Nodup
import Mathlib.Data.List.TakeWhile
import Prose.WriterTables
/-!
# WriterColumns — columns put in and taken out

`InsertTableColumnAt` and `DeleteTableColumnAt` go through rows from the bottom up and edit one cell of each.  The first begins at the
caret's row, whatever rows stand above it; the second cuts a cell with the separator behind it, and the last cell has none.
-/
namespace Prose
namespace Writer

open Splice List

def rowCells (t : List Byte) : List (List Byte) := t.splitOn kCellSep

def Rectangular (ps : List Para) (para : Nat) : Prop :=
  ∀ i p, tableFirst ps para ≤ i → i ≤ tableLast ps para → ps[i]? = some p →
    (rowCells p.text).length = (rowCells (paraAt ps para).text).length

/-- **A column is gone**: of every row of the table that cell, and nothing else. -/
structure ColumnDeleted (ps ps' : List Para) (first last col : Nat) : Prop where
  length : ps'.length = ps.length
  rows : ∀ i p p', ps[i]? = some p → ps'[i]? = some p' →
    if first ≤ i ∧ i ≤ last then rowCells p'.text = (rowCells p.text).eraseIdx col else p'.text = p.text

/-- **There is a column more**: of every row of the table an empty cell, and nothing else. -/
structure ColumnInserted (ps ps' : List Para) (first last col : Nat) : Prop where
  length : ps'.length = ps.length
  rows : ∀ i p p', ps[i]? = some p → ps'[i]? = some p' →
    if first ≤ i ∧ i ≤ last then rowCells p'.text = (rowCells p.text).insertIdx col [] else p'.text = p.text

/-! ## The cells of one row -/

theorem rowCells_cons (c : Byte) (t : List Byte) :
    rowCells (c :: t) = if c = kCellSep then [] :: rowCells t else (rowCells t).modifyHead (c :: ·) := by
  unfold rowCells
  rw [splitOn_cons_eq_if_modifyHead]
  simp only [beq_iff_eq]

theorem length_rowCells : ∀ t : List Byte, (rowCells t).length = t.count kCellSep + 1
  | [] => rfl
  | c :: t => by
    rw [rowCells_cons, List.count_cons]
    by_cases hc : c = kCellSep
    · rw [if_pos hc, length_cons, length_rowCells t, if_pos (beq_iff_eq.2 hc)]
    · rw [if_neg hc, length_modifyHead, length_rowCells t, if_neg fun h => hc (beq_iff_eq.1 h), Nat.add_zero]

structure Front (col : Nat) (a : List Byte) : Prop where
  start : ∀ y, cellOffset (a ++ y) col = some a.length
  next : ∀ y, cellOffset (a ++ y) (col + 1) = (cellOffset y 1).map (a.length + ·)
  cells : ∃ S : List (List Byte), S.length = col ∧ ∀ y, rowCells (a ++ y) = S ++ rowCells y
  count : a.count kCellSep = col

theorem front_zero : Front 0 [] where
  start _ := by unfold cellOffset; rfl
  next y := by
    rw [nil_append, show (([] : List Byte).length + ·) = id from funext fun n => Nat.zero_add n, Option.map_id, id]
  cells := ⟨[], rfl, fun _ => rfl⟩
  count := rfl

theorem Front.sep {col : Nat} {a : List Byte} (h : Front col a) : Front (col + 1) (kCellSep :: a) where
  start y := by
    rw [cons_append, cellOffset, if_pos rfl, h.start]
    rfl
  next y := by
    rw [cons_append, cellOffset, if_pos rfl, h.next, Option.map_map, length_cons]
    congr 1
    funext n
    show a.length + n + 1 = a.length + 1 + n
    omega
  cells := by
    obtain ⟨S, hS, hcells⟩ := h.cells
    refine ⟨[] :: S, by rw [length_cons, hS], fun y => ?_⟩
    rw [cons_append, rowCells_cons, if_pos rfl, hcells, cons_append]
  count := by rw [count_cons_self, h.count]

theorem Front.cons {col : Nat} {a : List Byte} (h : Front (col + 1) a) {c : Byte} (hc : c ≠ kCellSep) : Front (col + 1) (c :: a) where
  start y := by
    rw [cons_append, cellOffset, if_neg hc, h.start]
    rfl
  next y := by
    rw [cons_append, cellOffset, if_neg hc, h.next, Option.map_map, length_cons]
    congr 1
    funext n
    show a.length + n + 1 = a.length + 1 + n
    omega
  cells := by
    obtain ⟨S, hS, hcells⟩ := h.cells
    obtain ⟨s, S, rfl⟩ := exists_cons_of_length_eq_add_one hS
    refine ⟨(c :: s) :: S, hS, fun y => ?_⟩
    rw [cons_append, rowCells_cons, if_neg hc, hcells]
    rfl
  count := by rw [count_cons_of_ne hc, h.count]

/-- **A row has a front up to each of its cells.** -/
theorem exists_front : ∀ {t : List Byte} {col : Nat}, col ≤ t.count kCellSep → ∃ a b, t = a ++ b ∧ Front col a
  | t, 0, _ => ⟨[], t, rfl, front_zero⟩
  | [], _ + 1, h => absurd h (by simp)
  | c :: t, col + 1, h => by
    by_cases hc : c = kCellSep
    · subst hc
      rw [count_cons_self] at h
      obtain ⟨a, b, rfl, hf⟩ := exists_front (Nat.le_of_succ_le_succ h)
      exact ⟨kCellSep :: a, b, rfl, hf.sep⟩
    · rw [count_cons_of_ne hc] at h
      obtain ⟨a, b, rfl, hf⟩ := exists_front h
      exact ⟨c :: a, b, rfl, hf.cons hc⟩

theorem cellOffset_one {x : List Byte} (hx : kCellSep ∉ x) (y : List Byte) :
    cellOffset (x ++ kCellSep :: y) 1 = some (x.length + 1) ∧ cellOffset x 1 = none := by
  induction x with
  | nil =>
    refine ⟨?_, by unfold cellOffset; rfl⟩
    rw [nil_append, cellOffset, if_pos rfl, cellOffset]
    rfl
  | cons c x ih =>
    obtain ⟨hc, hx⟩ := not_or.1 (mt mem_cons.2 hx)
    obtain ⟨h1, h2⟩ := ih hx
    rw [cons_append, cellOffset, if_neg (Ne.symm hc), h1, cellOffset, if_neg (Ne.symm hc), h2]
    exact ⟨rfl, rfl⟩

/-! ## A cell put in, a cell taken out -/

/-- What `InsertTableColumnAt` makes of a row's text. -/
def insertCell (col : Nat) (t : List Byte) : List Byte := insertAt ((cellOffset t col).getD t.length) [kCellSep] t

/-- What `DeleteTableColumnAt` makes of a row's text. -/
def deleteCell (col : Nat) (t : List Byte) : List Byte :=
  match cellOffset t col with
  | none => t
  | some start => cut start ((cellOffset t (col + 1)).getD t.length) t

theorem Front.insertCell {col : Nat} {a : List Byte} (h : Front col a) (b : List Byte) :
    insertCell col (a ++ b) = a ++ kCellSep :: b := by
  unfold Writer.insertCell
  rw [h.start, Option.getD_some, insertAt_length rfl]
  rfl

theorem Front.deleteCell {col : Nat} {a x : List Byte} (h : Front col a) (hx : kCellSep ∉ x) (y : List Byte) :
    deleteCell col (a ++ (x ++ kCellSep :: y)) = a ++ y := by
  unfold Writer.deleteCell
  rw [h.start, h.next, (cellOffset_one hx y).1]
  dsimp only
  rw [Option.map_some, Option.getD_some]
  unfold cut
  rw [take_left, ← drop_drop, drop_left, show x.length + 1 = (x ++ [kCellSep]).length by rw [length_append]; rfl,
    show x ++ kCellSep :: y = (x ++ [kCellSep]) ++ y by rw [append_assoc]; rfl, drop_left]

theorem Front.deleteCell_last {col : Nat} {a x : List Byte} (h : Front col a) (hx : kCellSep ∉ x) :
    Writer.deleteCell col (a ++ x) = a := by
  unfold Writer.deleteCell
  rw [h.start, h.next, (cellOffset_one hx []).2]
  dsimp only
  rw [Option.map_none, Option.getD_none, cut, take_left, drop_length, append_nil]

theorem exists_sep : ∀ {t : List Byte}, kCellSep ∈ t → ∃ x y, t = x ++ kCellSep :: y ∧ kCellSep ∉ x
  | c :: t, h => by
    by_cases hc : c = kCellSep
    · exact ⟨[], t, by rw [hc]; rfl, not_mem_nil⟩
    · obtain ⟨x, y, rfl, hx⟩ := exists_sep ((mem_cons.1 h).resolve_left (Ne.symm hc))
      exact ⟨c :: x, y, rfl, fun hm => (mem_cons.1 hm).elim (fun he => hc he.symm) hx⟩

theorem rowCells_plain {x : List Byte} (hx : kCellSep ∉ x) : rowCells x = [x] := splitOn_eq_singleton hx

theorem rowCells_sep {x : List Byte} (hx : kCellSep ∉ x) (y : List Byte) : rowCells (x ++ kCellSep :: y) = x :: rowCells y :=
  splitOn_append_cons_self_of_not_mem hx y

theorem insertIdx_length {α : Type} (S : List α) (x : α) (xs : List α) : (S ++ xs).insertIdx S.length x = S ++ x :: xs := by
  induction S with
  | nil => rfl
  | cons s S ih => rw [cons_append, length_cons, insertIdx_succ_cons, ih, cons_append]

/-- **An empty cell more.** -/
theorem rowCells_insertCell {t : List Byte} {col : Nat} (h : col ≤ t.count kCellSep) :
    rowCells (insertCell col t) = (rowCells t).insertIdx col [] := by
  obtain ⟨a, b, rfl, hf⟩ := exists_front h
  obtain ⟨S, rfl, hS⟩ := hf.cells
  rw [hf.insertCell, hS, hS, insertIdx_length, show rowCells (kCellSep :: b) = [] :: rowCells b from rowCells_sep not_mem_nil b]

/-- **A cell less, exactly if it is not the last one.** -/
theorem rowCells_deleteCell {t : List Byte} {col : Nat} (h : col ≤ t.count kCellSep) :
    rowCells (deleteCell col t) = (rowCells t).eraseIdx col ↔ col + 1 < (rowCells t).length := by
  have hlen := length_rowCells t
  obtain ⟨a, b, rfl, hf⟩ := exists_front h
  obtain ⟨S, hSlen, hS⟩ := hf.cells
  rw [hS, length_append, hSlen] at hlen ⊢
  by_cases hb : kCellSep ∈ b
  · obtain ⟨x, y, rfl, hx⟩ := exists_sep hb
    rw [hf.deleteCell hx, hS, rowCells_sep hx, ← hSlen, eraseIdx_append_of_length_le (Nat.le_refl _), Nat.sub_self,
      eraseIdx_cons_zero, length_cons]
    have hpos := length_rowCells y
    exact iff_of_true rfl (by omega)
  rw [hf.deleteCell_last hb, rowCells_plain hb, ← hSlen, eraseIdx_append_of_length_le (Nat.le_refl _), Nat.sub_self]
  refine iff_of_false (fun he => ?_) (by rw [length_singleton]; omega)
  have hlast := hS []
  rw [append_nil] at hlast
  have hcount := congrArg List.length he
  rw [hlast, length_append, length_append] at hcount
  exact absurd hcount (by simp [rowCells])

/-- **The empty cell taken out again.** -/
theorem deleteCell_insertCell {t : List Byte} {col : Nat} (h : col ≤ t.count kCellSep) : deleteCell col (insertCell col t) = t := by
  obtain ⟨a, b, rfl, hf⟩ := exists_front h
  rw [hf.insertCell]
  exact hf.deleteCell not_mem_nil b

/-! ## The rows of a table -/

theorem of_takeWhile {l : List Para} {k : Nat} (hk : k < (l.takeWhile Para.isRow).length) : isRow l k = true := by
  have hmem := getElem_mem hk
  have hget : l[k]? = some ((l.takeWhile Para.isRow)[k]) := by
    rw [← getElem?_eq_getElem hk]
    conv => lhs; rw [← takeWhile_append_dropWhile (p := Para.isRow) (l := l)]
    exact getElem?_append_left hk
  unfold isRow
  rw [hget]
  show Para.isRow _ = true
  exact mem_takeWhile_imp hmem

theorem isRow_table {ps : List Para} {para i : Nat} (hrow : isRow ps para = true) (hfirst : tableFirst ps para ≤ i)
    (hlast : i ≤ tableLast ps para) : isRow ps i = true := by
  unfold tableFirst at hfirst
  unfold tableLast at hlast
  have hpara : para < ps.length := by
    rcases Nat.lt_or_ge para ps.length with h | h
    · exact h
    · unfold isRow at hrow
      rw [getElem?_eq_none h] at hrow
      exact absurd hrow Bool.false_ne_true
  rcases Nat.lt_trichotomy i para with hi | rfl | hi
  · have h := of_takeWhile (l := (ps.take para).reverse) (k := para - 1 - i) (by omega)
    unfold isRow at h ⊢
    have hlen : (ps.take para).length = para := length_take_of_le (Nat.le_of_lt hpara)
    rwa [getElem?_reverse (by omega), hlen, show para - 1 - (para - 1 - i) = i by omega, getElem?_take_of_lt hi] at h
  · exact hrow
  · have h := of_takeWhile (l := ps.drop (para + 1)) (k := i - (para + 1)) (by omega)
    unfold isRow at h ⊢
    rwa [getElem?_drop, show para + 1 + (i - (para + 1)) = i by omega] at h

theorem tableLast_lt {ps : List Para} {para : Nat} (hpara : para < ps.length) : tableLast ps para < ps.length := by
  have h := (takeWhile_sublist Para.isRow (l := ps.drop (para + 1))).length_le
  rw [length_drop] at h
  unfold tableLast
  omega

theorem tableFirst_le (ps : List Para) (para : Nat) : tableFirst ps para ≤ para := Nat.sub_le _ _

theorem le_tableLast (ps : List Para) (para : Nat) : para ≤ tableLast ps para := Nat.le_add_right _ _

theorem table_congr {ps ps' : List Para} (h : ps'.map Para.isRow = ps.map Para.isRow) (para : Nat) :
    tableFirst ps' para = tableFirst ps para ∧ tableLast ps' para = tableLast ps para := by
  have hlen (l : List Para) : (l.takeWhile Para.isRow).length = ((l.map Para.isRow).takeWhile id).length := by
    rw [takeWhile_map, length_map]
    rfl
  unfold tableFirst tableLast
  rw [hlen, hlen, hlen, hlen, map_reverse, map_reverse, map_take, map_take, map_drop, map_drop, h]
  exact ⟨rfl, rfl⟩

/-! ## The loops -/

def insertCellAt (col : Nat) (d : PWDocument) (p : Nat) : PWDocument :=
  d.insert ((cellStart d.fParas p col).getD (paraStart d.fParas p + (paraAt d.fParas p).text.length)) [kCellSep] none

def deleteCellAt (col : Nat) (d : PWDocument) (p : Nat) : PWDocument :=
  match cellStart d.fParas p col with
  | none => d
  | some start =>
    let stop := (cellStart d.fParas p (col + 1)).getD (paraStart d.fParas p + (paraAt d.fParas p).text.length)
    d.remove start (stop - start)

theorem cellStart_mid (pre : List Para) (p : Para) (post : List Para) (col : Nat) :
    cellStart (pre ++ p :: post) pre.length col = (cellOffset p.text col).map (byteSpan pre + ·) := by
  unfold cellStart
  rw [paraAt_mid, paraStart_mid]

theorem cellOffset_le : ∀ {t : List Byte} {col k : Nat}, cellOffset t col = some k → k ≤ t.length
  | t, 0, k, h => by
    unfold cellOffset at h
    rw [← Option.some.inj h]
    exact Nat.zero_le _
  | [], _ + 1, _, h => nomatch h
  | c :: t, col + 1, k, h => by
    unfold cellOffset at h
    obtain ⟨j, hj, rfl⟩ := Option.map_eq_some_iff.1 h
    exact Nat.succ_le_succ (cellOffset_le hj)

theorem cellOffset_mono : ∀ {t : List Byte} {col k l : Nat}, cellOffset t col = some k → cellOffset t (col + 1) = some l → k ≤ l
  | t, 0, k, l, h, _ => by
    unfold cellOffset at h
    rw [← Option.some.inj h]
    exact Nat.zero_le _
  | c :: t, col + 1, k, l, h, h' => by
    unfold cellOffset at h h'
    obtain ⟨j, hj, rfl⟩ := Option.map_eq_some_iff.1 h
    obtain ⟨m, hm, rfl⟩ := Option.map_eq_some_iff.1 h'
    by_cases hc : c = kCellSep
    · rw [if_pos hc] at hj hm
      exact Nat.succ_le_succ (cellOffset_mono hj hm)
    · rw [if_neg hc] at hj hm
      exact Nat.succ_le_succ (cellOffset_mono hj hm)

def EditsRow (f : PWDocument → Nat → PWDocument) (g : List Byte → List Byte) : Prop :=
  ∀ d pre p post, Lined d.fParas → d.fParas = pre ++ p :: post →
    Lined (f d pre.length).fParas ∧ texts (f d pre.length).fParas = texts pre ++ g p.text :: texts post

theorem insertCellAt_row (col : Nat) : EditsRow (insertCellAt col) (insertCell col) := fun d pre p post hd hps => by
  refine ⟨hd.insert _ _ _, ?_⟩
  have hat : (cellStart d.fParas pre.length col).getD (paraStart d.fParas pre.length + (paraAt d.fParas pre.length).text.length) =
      byteSpan pre + (cellOffset p.text col).getD p.text.length := by
    rw [hps, cellStart_mid, paraStart_mid, paraAt_mid]
    cases cellOffset p.text col <;> rfl
  unfold insertCellAt
  rw [hat]
  refine texts_insert hd hps ?_ (by decide) none
  cases h : cellOffset p.text col with
  | none => exact Nat.le_refl _
  | some k => exact cellOffset_le h

theorem deleteCellAt_row (col : Nat) : EditsRow (deleteCellAt col) (deleteCell col) := fun d pre p post hd hps => by
  unfold deleteCellAt deleteCell
  have hstart := cellStart_mid pre p post col
  have hstop : (cellStart d.fParas pre.length (col + 1)).getD (paraStart d.fParas pre.length + (paraAt d.fParas pre.length).text.length) =
      byteSpan pre + (cellOffset p.text (col + 1)).getD p.text.length := by
    rw [hps, cellStart_mid, paraStart_mid, paraAt_mid]
    cases cellOffset p.text (col + 1) <;> rfl
  rw [← hps] at hstart
  rw [hstart, hstop]
  cases hk : cellOffset p.text col with
  | none =>
    refine ⟨hd, ?_⟩
    show texts d.fParas = texts pre ++ p.text :: texts post
    rw [hps, texts_append, texts_cons]
  | some k =>
    refine ⟨hd.remove _ _, ?_⟩
    dsimp only [Option.map_some]
    have hle : k ≤ (cellOffset p.text (col + 1)).getD p.text.length ∧ (cellOffset p.text (col + 1)).getD p.text.length ≤ p.text.length := by
      cases hl : cellOffset p.text (col + 1) with
      | none => exact ⟨cellOffset_le hk, Nat.le_refl _⟩
      | some l => exact ⟨cellOffset_mono hk hl, cellOffset_le hl⟩
    have h := texts_remove hd hps (k := k) (n := (cellOffset p.text (col + 1)).getD p.text.length - k) (by omega)
    rw [Nat.add_sub_cancel' hle.1] at h
    rwa [Nat.add_sub_add_left]

/-- **The rows of a loop are edited, and nothing else.** -/
theorem edited_rows {f : PWDocument → Nat → PWDocument} {g : List Byte → List Byte} (hf : EditsRow f g) {d : PWDocument} (hd : Lined d.fParas) :
    ∀ {rows : List Nat}, rows.Nodup → (∀ p ∈ rows, p < d.fParas.length) → Lined (rows.reverse.foldl f d).fParas ∧
      texts (rows.reverse.foldl f d).fParas = (texts d.fParas).mapIdx fun i t => if i ∈ rows then g t else t
  | [], _, _ => by
    refine ⟨hd, (mapIdx_eq_iff.2 fun i => ?_).symm⟩
    simp only [not_mem_nil, if_false]
    exact Option.map_id'.symm
  | r :: rows, hnodup, hlt => by
    obtain ⟨hr, hrows⟩ := nodup_cons.1 hnodup
    obtain ⟨hd', htexts⟩ := edited_rows hf hd hrows fun p hp => hlt p (mem_cons_of_mem _ hp)
    rw [reverse_cons, foldl_append]
    generalize rows.reverse.foldl f d = d' at hd' htexts ⊢
    have hlen : d'.fParas.length = d.fParas.length := by
      rw [← length_texts, htexts, length_mapIdx, length_texts]
    obtain ⟨pre, p, post, hps, hpre⟩ := exists_mid (show r < d'.fParas.length from hlen ▸ hlt r mem_cons_self)
    obtain ⟨h1, h2⟩ := hf d' pre p post hd' hps
    rw [hpre] at h1 h2
    refine ⟨h1, ?_⟩
    show texts (f d' r).fParas = _
    have hsame : texts pre ++ p.text :: texts post = (texts d.fParas).mapIdx fun i t => if i ∈ rows then g t else t := by
      rw [← htexts, hps, texts_append, texts_cons]
    rw [h2]
    refine ext_getElem? fun i => ?_
    have hi : (texts pre ++ p.text :: texts post)[i]? = _ := congrArg (fun l : List (List Byte) => l[i]?) hsame
    rw [getElem?_mapIdx] at hi ⊢
    by_cases hir : i = r
    · rw [hir, ← hpre, ← length_texts pre, getElem?_append_right (Nat.le_refl _), Nat.sub_self, getElem?_cons_zero] at hi ⊢
      rw [length_texts, hpre] at hi ⊢
      obtain ⟨t, ht, htp⟩ := Option.map_eq_some_iff.1 hi.symm
      rw [if_neg hr] at htp
      rw [ht, htp, Option.map_some, if_pos mem_cons_self]
    have hmem : (i ∈ r :: rows) ↔ i ∈ rows := by
      rw [mem_cons]
      exact or_iff_right hir
    simp only [hmem]
    rw [← hi]
    rcases Nat.lt_or_ge i (texts pre).length with hlt' | hge
    · rw [getElem?_append_left hlt', getElem?_append_left hlt']
    rw [getElem?_append_right hge, getElem?_append_right hge]
    rw [length_texts, hpre] at hge ⊢
    obtain ⟨k, hk⟩ := Nat.exists_eq_add_of_lt (show r < i by omega)
    rw [hk, show r + k + 1 - r = k + 1 by omega, getElem?_cons_succ, getElem?_cons_succ]

theorem rows_of_edited {ps ps' : List Para} {g : List Byte → List Byte} {first n : Nat}
    (h : texts ps' = (texts ps).mapIdx fun i t => if i ∈ List.range' first n then g t else t) :
    ps'.length = ps.length ∧ ∀ i p p', ps[i]? = some p → ps'[i]? = some p' →
      p'.text = if first ≤ i ∧ i < first + n then g p.text else p.text := by
  refine ⟨by rw [← length_texts, h, length_mapIdx, length_texts], fun i p p' hp hp' => ?_⟩
  have hi := congrArg (fun l : List (List Byte) => l[i]?) h
  have hleft : (texts ps')[i]? = some p'.text := by
    unfold texts
    rw [getElem?_map, hp']
    rfl
  have hright : (texts ps)[i]? = some p.text := by
    unfold texts
    rw [getElem?_map, hp]
    rfl
  rw [getElem?_mapIdx, hright] at hi
  rw [hleft] at hi
  rw [Option.some.inj hi]
  exact if_congr mem_range'_1 rfl rfl

section
variable {d : PWDocument}

theorem range_rows {first last : Nat} (hlast : last < d.fParas.length) :
    (List.range' first (last + 1 - first)).Nodup ∧ ∀ p ∈ List.range' first (last + 1 - first), p < d.fParas.length := by
  refine ⟨nodup_range', fun p hp => ?_⟩
  rw [mem_range'_1] at hp
  omega

theorem sep_mem {ps : List Para} {i : Nat} {p : Para} (hrow : isRow ps i = true) (hp : ps[i]? = some p) : kCellSep ∈ p.text := by
  unfold isRow at hrow
  rw [hp] at hrow
  exact contains_iff_mem.1 hrow

theorem le_foldl_max : ∀ (l : List Nat) (m : Nat), m ≤ l.foldl max m ∧ ∀ x ∈ l, x ≤ l.foldl max m
  | [], m => ⟨Nat.le_refl _, fun _ h => nomatch h⟩
  | x :: l, m => by
    obtain ⟨h1, h2⟩ := le_foldl_max l (max m x)
    rw [foldl_cons]
    refine ⟨Nat.le_trans (Nat.le_max_left _ _) h1, fun y hy => ?_⟩
    rcases mem_cons.1 hy with rfl | hy
    · exact Nat.le_trans (Nat.le_max_right _ _) h1
    · exact h2 y hy

theorem caretColumn_le {offset i : Nat} {p : Para} (hrect : Rectangular d.fParas (locate d.fParas offset).1)
    (hfirst : tableFirst d.fParas (locate d.fParas offset).1 ≤ i) (hlast : i ≤ tableLast d.fParas (locate d.fParas offset).1)
    (hp : d.fParas[i]? = some p) : caretColumn d.fParas offset ≤ p.text.count kCellSep := by
  have hwide := hrect i p hfirst hlast hp
  rw [length_rowCells, length_rowCells] at hwide
  have hcol : caretColumn d.fParas offset ≤ (paraAt d.fParas (locate d.fParas offset).1).text.count kCellSep :=
    (take_sublist _ _).count_le _
  omega

theorem deleteTableColumnAt_eq {offset : Nat} (hpara : (locate d.fParas offset).1 < d.fParas.length)
    (hrow : isRow d.fParas (locate d.fParas offset).1 = true) : ∃ c, d.deleteTableColumnAt offset =
      some ((List.range' (tableFirst d.fParas (locate d.fParas offset).1)
        (tableLast d.fParas (locate d.fParas offset).1 + 1 - tableFirst d.fParas (locate d.fParas offset).1)).reverse.foldl
          (deleteCellAt (caretColumn d.fParas offset)) d, some c) := by
  have hcells : ¬ ((List.range' (tableFirst d.fParas (locate d.fParas offset).1)
      (tableLast d.fParas (locate d.fParas offset).1 + 1 - tableFirst d.fParas (locate d.fParas offset).1)).map
        (fun p => (paraAt d.fParas p).text.count kCellSep + 1)).foldl max 1 ≤ 1 := by
    have hmem : (locate d.fParas offset).1 ∈ List.range' (tableFirst d.fParas (locate d.fParas offset).1)
        (tableLast d.fParas (locate d.fParas offset).1 + 1 - tableFirst d.fParas (locate d.fParas offset).1) := by
      have h1 := tableFirst_le d.fParas (locate d.fParas offset).1
      have h2 := le_tableLast d.fParas (locate d.fParas offset).1
      rw [mem_range'_1]
      omega
    have hle := (le_foldl_max _ 1).2 _ (mem_map_of_mem (f := fun p => (paraAt d.fParas p).text.count kCellSep + 1) hmem)
    have hget := getElem?_eq_getElem hpara
    have hpos := count_pos_iff.2 (sep_mem hrow hget)
    rw [paraAt_of_getElem? hget] at hle
    omega
  unfold PWDocument.deleteTableColumnAt
  dsimp only
  rw [hrow, Bool.not_true, if_neg Bool.false_ne_true, if_neg hcells]
  exact ⟨_, rfl⟩

/-- **`DeleteTableColumnAt` takes the caret's column out exactly if it is not the last one.** -/
theorem deleteTableColumnAt_iff (hd : Lined d.fParas) (offset : Nat) (hrow : isRow d.fParas (locate d.fParas offset).1 = true)
    (hrect : Rectangular d.fParas (locate d.fParas offset).1) :
    (∃ d' c, d.deleteTableColumnAt offset = some (d', c) ∧ ColumnDeleted d.fParas d'.fParas
      (tableFirst d.fParas (locate d.fParas offset).1) (tableLast d.fParas (locate d.fParas offset).1) (caretColumn d.fParas offset)) ↔
      caretColumn d.fParas offset + 1 < (rowCells (paraAt d.fParas (locate d.fParas offset).1).text).length := by
  obtain ⟨pre, p, post, k, hps, hloc, hk, -⟩ := locate_spec hd.ne_nil offset
  have hpara : (locate d.fParas offset).1 < d.fParas.length := by
    rw [hloc, hps, length_append, length_cons]
    exact Nat.lt_add_of_pos_right (Nat.succ_pos _)
  have hcol : caretColumn d.fParas offset ≤ p.text.count kCellSep := by
    unfold caretColumn
    rw [hloc, hps, paraAt_mid]
    exact (take_sublist k p.text).count_le _
  have hp : paraAt d.fParas (locate d.fParas offset).1 = p := by rw [hloc, hps, paraAt_mid]
  obtain ⟨c, hcall⟩ := deleteTableColumnAt_eq hpara hrow
  obtain ⟨hnodup, hlt⟩ := @range_rows d (tableFirst d.fParas (locate d.fParas offset).1) _ (tableLast_lt hpara)
  obtain ⟨-, htexts⟩ := edited_rows (deleteCellAt_row (caretColumn d.fParas offset)) hd hnodup hlt
  obtain ⟨hlength, hrows⟩ := rows_of_edited htexts
  have hfirst := tableFirst_le d.fParas (locate d.fParas offset).1
  have hlast := le_tableLast d.fParas (locate d.fParas offset).1
  generalize hfin : (List.range' (tableFirst d.fParas (locate d.fParas offset).1) (tableLast d.fParas (locate d.fParas offset).1 + 1 -
    tableFirst d.fParas (locate d.fParas offset).1)).reverse.foldl (deleteCellAt (caretColumn d.fParas offset)) d = fin at *
  rw [hp]
  constructor
  · rintro ⟨d', c', hd', h⟩
    obtain ⟨rfl, -⟩ := Prod.mk.inj (Option.some.inj (hcall.symm.trans hd'))
    have hget : d.fParas[(locate d.fParas offset).1]? = some p := by
      rw [hloc, hps, getElem?_append_right (Nat.le_refl _), Nat.sub_self]
      rfl
    obtain ⟨p', hget'⟩ : ∃ p', fin.fParas[(locate d.fParas offset).1]? = some p' := ⟨_, getElem?_eq_getElem (hlength ▸ hpara)⟩
    have hcells := h.rows _ p p' hget hget'
    rw [if_pos ⟨hfirst, hlast⟩, hrows _ p p' hget hget', if_pos (by omega)] at hcells
    exact (rowCells_deleteCell hcol).1 hcells
  · intro hmore
    refine ⟨fin, some c, hcall, hlength, fun i q q' hq hq' => ?_⟩
    have hrow' := hrows i q q' hq hq'
    by_cases hi : tableFirst d.fParas (locate d.fParas offset).1 ≤ i ∧ i ≤ tableLast d.fParas (locate d.fParas offset).1
    · rw [if_pos (by omega)] at hrow'
      have hwide := hrect i q hi.1 hi.2 hq
      rw [hp] at hwide
      rw [if_pos hi, hrow', rowCells_deleteCell (caretColumn_le hrect hi.1 hi.2 hq)]
      omega
    · rw [if_neg (by omega)] at hrow'
      rw [if_neg hi, hrow']

theorem isRow_inserted {ps ps' : List Para} {first n col : Nat} (hlength : ps'.length = ps.length)
    (hrows : ∀ i p p', ps[i]? = some p → ps'[i]? = some p' → p'.text = if first ≤ i ∧ i < first + n then insertCell col p.text else p.text)
    (htable : ∀ i p, first ≤ i → i < first + n → ps[i]? = some p → p.isRow = true) : ps'.map Para.isRow = ps.map Para.isRow := by
  refine ext_getElem? fun i => ?_
  rw [getElem?_map, getElem?_map]
  rcases Nat.lt_or_ge i ps.length with hi | hi
  · have hp := getElem?_eq_getElem hi
    have hp' := getElem?_eq_getElem (show i < ps'.length from hlength ▸ hi)
    have htext := hrows i _ _ hp hp'
    rw [hp, hp', Option.map_some, Option.map_some]
    congr 1
    by_cases hin : first ≤ i ∧ i < first + n
    · rw [if_pos hin] at htext
      have hmem : kCellSep ∈ ps'[i].text := by
        rw [htext]
        unfold insertCell
        exact mem_append_left _ (mem_append_right _ mem_cons_self)
      rw [htable i _ hin.1 hin.2 hp]
      exact contains_iff_mem.2 hmem
    · rw [if_neg hin] at htext
      unfold Para.isRow
      rw [htext]
  · rw [getElem?_eq_none hi, getElem?_eq_none (hlength ▸ hi)]

/-- **The column put in is taken out again.** -/
theorem delete_inserted {offset : Nat} (hpara : (locate d.fParas offset).1 < d.fParas.length)
    (hrow : isRow d.fParas (locate d.fParas offset).1 = true) (hrect : Rectangular d.fParas (locate d.fParas offset).1) {d' : PWDocument}
    (hd' : Lined d'.fParas) (htexts : texts d'.fParas = (texts d.fParas).mapIdx fun i t =>
      if i ∈ List.range' (tableFirst d.fParas (locate d.fParas offset).1)
        (tableLast d.fParas (locate d.fParas offset).1 + 1 - tableFirst d.fParas (locate d.fParas offset).1)
      then insertCell (caretColumn d.fParas offset) t else t) :
    ∃ c d'' c'', cellStart d'.fParas (locate d.fParas offset).1 (caretColumn d.fParas offset) = some c ∧
      d'.deleteTableColumnAt c = some (d'', c'') ∧ texts d''.fParas = texts d.fParas := by
  obtain ⟨hlength, hrows⟩ := rows_of_edited htexts
  have hfirst := tableFirst_le d.fParas (locate d.fParas offset).1
  have hlast := le_tableLast d.fParas (locate d.fParas offset).1
  have htable (i : Nat) (p : Para) (h1 : tableFirst d.fParas (locate d.fParas offset).1 ≤ i)
      (h2 : i ≤ tableLast d.fParas (locate d.fParas offset).1) (hp : d.fParas[i]? = some p) :
      caretColumn d.fParas offset ≤ p.text.count kCellSep := caretColumn_le hrect h1 h2 hp
  have hisRow := isRow_inserted hlength hrows fun i p h1 h2 hp => by
    have h := isRow_table (i := i) hrow h1 (by omega)
    unfold isRow at h
    rwa [hp] at h
  obtain ⟨hfirst', hlast'⟩ := table_congr hisRow (locate d.fParas offset).1
  -- the caret in the new cell
  obtain ⟨pre, p, post, hps', hpre⟩ := exists_mid (show (locate d.fParas offset).1 < d'.fParas.length from hlength ▸ hpara)
  have hget : d'.fParas[(locate d.fParas offset).1]? = some p := by
    rw [hps', ← hpre, getElem?_append_right (Nat.le_refl _), Nat.sub_self]
    rfl
  have hold := getElem?_eq_getElem hpara
  have htext := hrows _ _ _ hold hget
  rw [if_pos (by omega)] at htext
  obtain ⟨a, b, hab, hf⟩ := exists_front (htable _ _ hfirst hlast hold)
  rw [hab, hf.insertCell] at htext
  have hstart : cellStart d'.fParas (locate d.fParas offset).1 (caretColumn d.fParas offset) = some (byteSpan pre + a.length) := by
    rw [hps', ← hpre, cellStart_mid, htext, hf.start]
    rfl
  have hloc : locate d'.fParas (byteSpan pre + a.length) = ((locate d.fParas offset).1, a.length) := by
    rw [hps', locate_mid post (by rw [htext, length_append]; omega) pre, hpre]
  have hcaret : caretColumn d'.fParas (byteSpan pre + a.length) = caretColumn d.fParas offset := by
    unfold caretColumn
    rw [hloc, paraAt_of_getElem? hget, htext, take_left]
    exact hf.count
  have hrow' : isRow d'.fParas (locate d'.fParas (byteSpan pre + a.length)).1 = true := by
    rw [hloc]
    unfold isRow
    rw [hget]
    exact contains_iff_mem.2 (by rw [htext]; exact mem_append_right _ mem_cons_self)
  obtain ⟨c'', hcall⟩ := deleteTableColumnAt_eq (by rw [hloc]; exact hlength ▸ hpara) hrow'
  rw [hloc, hcaret, hfirst', hlast'] at hcall
  have hlt : tableLast d.fParas (locate d.fParas offset).1 < d'.fParas.length := hlength ▸ tableLast_lt hpara
  obtain ⟨hnodup, hall⟩ := @range_rows d' (tableFirst d.fParas (locate d.fParas offset).1) _ hlt
  obtain ⟨-, hback⟩ := edited_rows (deleteCellAt_row (caretColumn d.fParas offset)) hd' hnodup hall
  refine ⟨_, _, c'', hstart, hcall, ?_⟩
  rw [hback, htexts]
  refine ext_getElem? fun i => ?_
  rw [getElem?_mapIdx, getElem?_mapIdx, Option.map_map]
  unfold texts
  rw [getElem?_map, Option.map_map]
  rcases Nat.lt_or_ge i d.fParas.length with hi | hi
  · have hp := getElem?_eq_getElem hi
    rw [hp, Option.map_some, Option.map_some]
    congr 1
    simp only [Function.comp_apply]
    by_cases hin : i ∈ List.range' (tableFirst d.fParas (locate d.fParas offset).1)
        (tableLast d.fParas (locate d.fParas offset).1 + 1 - tableFirst d.fParas (locate d.fParas offset).1)
    · rw [if_pos hin, if_pos hin]
      rw [mem_range'_1] at hin
      exact deleteCell_insertCell (htable i _ hin.1 (by omega) hp)
    · rw [if_neg hin, if_neg hin]
  · rw [getElem?_eq_none hi]
    rfl

theorem insertTableColumnAt_eq {offset : Nat} (hrow : isRow d.fParas (locate d.fParas offset).1 = true) :
    ∀ fin, (List.range' (locate d.fParas offset).1 (tableLast d.fParas (locate d.fParas offset).1 + 1 - (locate d.fParas offset).1)).reverse.foldl
        (insertCellAt (caretColumn d.fParas offset)) d = fin →
      d.insertTableColumnAt offset = some (fin, cellStart fin.fParas (locate d.fParas offset).1 (caretColumn d.fParas offset)) := by
  rintro fin rfl
  unfold PWDocument.insertTableColumnAt
  dsimp only
  rw [hrow, Bool.not_true, if_neg Bool.false_ne_true]
  rfl

/-- **`InsertTableColumnAt` gives every row of the table a cell exactly if the caret is in the table's first row**, and the next delete
takes them out again. -/
theorem insertTableColumnAt_iff (hd : Lined d.fParas) (offset : Nat) (hrow : isRow d.fParas (locate d.fParas offset).1 = true)
    (hrect : Rectangular d.fParas (locate d.fParas offset).1) :
    (∃ d' c, d.insertTableColumnAt offset = some (d', some c) ∧
      ColumnInserted d.fParas d'.fParas (tableFirst d.fParas (locate d.fParas offset).1) (tableLast d.fParas (locate d.fParas offset).1)
        (caretColumn d.fParas offset) ∧
      ∃ d'' c'', d'.deleteTableColumnAt c = some (d'', c'') ∧ texts d''.fParas = texts d.fParas) ↔
      tableFirst d.fParas (locate d.fParas offset).1 = (locate d.fParas offset).1 := by
  obtain ⟨pre, p, post, k, hps, hloc, hk, -⟩ := locate_spec hd.ne_nil offset
  have hpara : (locate d.fParas offset).1 < d.fParas.length := by
    rw [hloc, hps, length_append, length_cons]
    exact Nat.lt_add_of_pos_right (Nat.succ_pos _)
  have hfirst := tableFirst_le d.fParas (locate d.fParas offset).1
  have hlast := le_tableLast d.fParas (locate d.fParas offset).1
  obtain ⟨hnodup, hlt⟩ := @range_rows d (locate d.fParas offset).1 _ (tableLast_lt hpara)
  obtain ⟨hlined, htexts⟩ := edited_rows (insertCellAt_row (caretColumn d.fParas offset)) hd hnodup hlt
  have hcall := insertTableColumnAt_eq hrow _ rfl
  obtain ⟨hlength, hrows⟩ := rows_of_edited htexts
  generalize (List.range' (locate d.fParas offset).1 (tableLast d.fParas (locate d.fParas offset).1 + 1 -
    (locate d.fParas offset).1)).reverse.foldl (insertCellAt (caretColumn d.fParas offset)) d = fin at *
  constructor
  · rintro ⟨d', c, hd', h, -⟩
    obtain ⟨rfl, -⟩ := Prod.mk.inj (Option.some.inj (hcall.symm.trans hd'))
    by_contra hne
    -- the table's first row has the cells it had
    have hget := getElem?_eq_getElem (show tableFirst d.fParas (locate d.fParas offset).1 < d.fParas.length by omega)
    have hget' := getElem?_eq_getElem (show tableFirst d.fParas (locate d.fParas offset).1 < fin.fParas.length by omega)
    have htext := hrows _ _ _ hget hget'
    rw [if_neg (by omega)] at htext
    have hcells := h.rows _ _ _ hget hget'
    rw [if_pos ⟨Nat.le_refl _, by omega⟩, htext] at hcells
    have hcol := caretColumn_le hrect (Nat.le_refl _) (by omega) hget
    have hcount := congrArg List.length hcells
    rw [length_insertIdx_of_le_length (by rw [length_rowCells]; omega)] at hcount
    omega
  · intro hsame
    obtain ⟨c, d'', c'', hstart, hdelete, hback⟩ := delete_inserted hpara hrow hrect hlined (by
      rw [hsame]
      exact htexts)
    rw [hstart] at hcall
    refine ⟨fin, c, hcall, ⟨hlength, fun i q q' hq hq' => ?_⟩, d'', c'', hdelete, hback⟩
    have hrow' := hrows i q q' hq hq'
    rw [hsame]
    by_cases hi : (locate d.fParas offset).1 ≤ i ∧ i ≤ tableLast d.fParas (locate d.fParas offset).1
    · rw [if_pos (by omega)] at hrow'
      rw [if_pos hi, hrow']
      exact rowCells_insertCell (caretColumn_le hrect (Nat.le_trans (Nat.le_of_eq hsame) hi.1) hi.2 hq)
    · rw [if_neg (by omega)] at hrow'
      rw [if_neg hi, hrow']

end

/-! ## Two rows of two cells -/

theorem rectangular_of_all {ps : List Para} {n para : Nat} (hpara : para < ps.length) (h : ∀ p ∈ ps, p.text.count kCellSep = n) :
    Rectangular ps para := fun i p _ _ hp => by
  rw [length_rowCells, length_rowCells, h p (mem_of_getElem? hp), paraAt_of_getElem? (getElem?_eq_getElem hpara),
    h _ (getElem_mem hpara)]

theorem twoRows_rectangular {para : Nat} (h : para < 2) : Rectangular (written twoRows).fParas para :=
  rectangular_of_all (n := 1) (show para < (written twoRows).fParas.length from h) (by decide)

theorem deleteTableColumnAt_iff_twoRows :
    (∃ d' c, (written twoRows).deleteTableColumnAt 0 = some (d', c) ∧ ColumnDeleted (written twoRows).fParas d'.fParas
      (tableFirst (written twoRows).fParas (locate (written twoRows).fParas 0).1)
      (tableLast (written twoRows).fParas (locate (written twoRows).fParas 0).1) (caretColumn (written twoRows).fParas 0)) ↔
    caretColumn (written twoRows).fParas 0 + 1 <
      (rowCells (paraAt (written twoRows).fParas (locate (written twoRows).fParas 0).1).text).length :=
  deleteTableColumnAt_iff (written_reachable _).wellFormed.lined 0 (by decide) (twoRows_rectangular (by decide))

theorem insertTableColumnAt_iff_twoRows :
    (∃ d' c, (written twoRows).insertTableColumnAt 0 = some (d', some c) ∧
      ColumnInserted (written twoRows).fParas d'.fParas
        (tableFirst (written twoRows).fParas (locate (written twoRows).fParas 0).1)
        (tableLast (written twoRows).fParas (locate (written twoRows).fParas 0).1) (caretColumn (written twoRows).fParas 0) ∧
      ∃ d'' c'', d'.deleteTableColumnAt c = some (d'', c'') ∧ texts d''.fParas = texts (written twoRows).fParas) ↔
    tableFirst (written twoRows).fParas (locate (written twoRows).fParas 0).1 = (locate (written twoRows).fParas 0).1 :=
  insertTableColumnAt_iff (written_reachable _).wellFormed.lined 0 (by decide) (twoRows_rectangular (by decide))

/-- The caret in the second cell of the first row: the cells go, the separators stay. -/
theorem lastColumn_kept : ¬ ∀ (plain : FontFamily) (d : PWDocument) (offset : Nat), Reachable plain d →
    isRow d.fParas (locate d.fParas offset).1 = true → Rectangular d.fParas (locate d.fParas offset).1 →
    ∃ d' c, d.deleteTableColumnAt offset = some (d', c) ∧ ColumnDeleted d.fParas d'.fParas
      (tableFirst d.fParas (locate d.fParas offset).1) (tableLast d.fParas (locate d.fParas offset).1)
      (caretColumn d.fParas offset) := fun h => by
  obtain ⟨d', c, hd', hgone⟩ := h noFamily (written twoRows) 2 (written_reachable _) (by decide)
    (twoRows_rectangular (by decide))
  have hrun : ((written twoRows).deleteTableColumnAt 2).map (fun r => texts r.1.fParas) = some [[byteA, kCellSep], [kCellSep]] := by
    decide
  rw [hd'] at hrun
  have htexts := Option.some.inj hrun
  obtain ⟨p, post, hps, hp, -⟩ := map_eq_cons_iff.1 htexts
  have hcells := hgone.rows 0 (paraAt (written twoRows).fParas 0) p rfl (by rw [hps]; rfl)
  rw [if_pos (by decide), hp] at hcells
  have hcount := congrArg List.length hcells
  rw [length_rowCells, length_eraseIdx_of_lt (by rw [length_rowCells]; decide), length_rowCells] at hcount
  exact absurd hcount (by decide)

/-- **The caret in the second row**: the first row gets no cell. -/
theorem firstRow_left : ¬ ∀ (plain : FontFamily) (d : PWDocument) (offset : Nat), Reachable plain d →
    isRow d.fParas (locate d.fParas offset).1 = true → Rectangular d.fParas (locate d.fParas offset).1 →
    ∃ d' c, d.insertTableColumnAt offset = some (d', some c) ∧
      ColumnInserted d.fParas d'.fParas (tableFirst d.fParas (locate d.fParas offset).1) (tableLast d.fParas (locate d.fParas offset).1)
        (caretColumn d.fParas offset) ∧
      ∃ d'' c'', d'.deleteTableColumnAt c = some (d'', c'') ∧ texts d''.fParas = texts d.fParas := fun h => by
  obtain ⟨d', c, hd', hmore, -⟩ := h noFamily (written twoRows) 3 (written_reachable _) (by decide)
    (twoRows_rectangular (by decide))
  have hrun : ((written twoRows).insertTableColumnAt 3).map (fun r => texts r.1.fParas) =
      some [[byteA, kCellSep], [kCellSep, kCellSep, byteB]] := by decide
  rw [hd'] at hrun
  have htexts := Option.some.inj hrun
  obtain ⟨p, post, hps, hp, -⟩ := map_eq_cons_iff.1 htexts
  have hcells := hmore.rows 0 (paraAt (written twoRows).fParas 0) p rfl (by rw [hps]; rfl)
  rw [if_pos (by decide), hp] at hcells
  have hcount := congrArg List.length hcells
  rw [length_rowCells, length_insertIdx_of_le_length (by rw [length_rowCells]; decide), length_rowCells] at hcount
  exact absurd hcount (by decide)

end Writer
end Prose
