import Mathlib.Data.List.Basic
import Prose.Splice
import Prose.WriterModel
/-!
# WriterRuns — the run list of one paragraph

The run surgery of `PWDocument.cpp` (insertion, hole, restyling, split, `NormalizeRuns`), each loop body as the list of
runs it pushes for one run.  `Tiles a rs b` says that the runs stand end to end from `a` to `b`; `formats rs` is the
format of every byte they cover.  Each surgery keeps the tiling and acts on `formats` as a splice.
-/
namespace Prose
namespace Writer

open Splice List

def PWRun.rEnd (r : PWRun) : Int := r.start + r.length

/-! ## The loops of the source -/

/-- `Insert`: what the loop pushes for one run. -/
def insertPieces (inPara len : Int) (f : PWCharFormat) (r : PWRun) : List PWRun :=
  if inPara > r.start ∧ inPara < r.rEnd then
    [⟨r.start, inPara - r.start, r.format⟩, ⟨inPara, len, f⟩, ⟨inPara + len, r.rEnd - inPara, r.format⟩]
  else if inPara = r.rEnd ∧ inPara ≠ 0 then [r]
  else [if r.start ≥ inPara then { r with start := r.start + len } else r]

/-- `Insert`: one pass of swaps from the back, which takes the run pushed last to its place. -/
def sinkLast : List PWRun → List PWRun
  | []      => []
  | r :: rs => match sinkLast rs with
    | []        => [r]
    | r' :: rs' => if r.start > r'.start then r' :: r :: rs' else r :: r' :: rs'

def insertRuns (inPara len : Int) (f : PWCharFormat) (rs : List PWRun) : List PWRun :=
  let runs := rs.flatMap (insertPieces inPara len f)
  if runs.length = rs.length then sinkLast (runs ++ [⟨inPara, len, f⟩]) else runs

/-- `Remove`: what the loop pushes for one run around the hole `[inPara, inPara + take)`. -/
def erasePieces (inPara take : Int) (r : PWRun) : List PWRun :=
  if r.rEnd ≤ inPara ∨ r.start ≥ inPara + take then
    [if r.start ≥ inPara + take then { r with start := r.start - take } else r]
  else
    (if r.start < inPara then [⟨r.start, inPara - r.start, r.format⟩] else []) ++
    (if r.rEnd > inPara + take then [⟨inPara, r.rEnd - inPara - take, r.format⟩] else [])

def eraseRuns (inPara take : Int) (rs : List PWRun) : List PWRun := rs.flatMap (erasePieces inPara take)

/-- `ApplyFormat`: what the loop pushes for one run. -/
def stylePieces (inPara take : Int) (fmt : PWCharFormat) (r : PWRun) : List PWRun :=
  if r.rEnd ≤ inPara ∨ r.start ≥ inPara + take then [r]
  else
    (if r.start < inPara then [⟨r.start, inPara - r.start, r.format⟩] else []) ++
    [⟨max inPara r.start, min r.rEnd (inPara + take) - max inPara r.start, fmt⟩] ++
    (if r.rEnd > inPara + take then [⟨inPara + take, r.rEnd - inPara - take, r.format⟩] else [])

def styleRuns (inPara take : Int) (fmt : PWCharFormat) (rs : List PWRun) : List PWRun :=
  rs.flatMap (stylePieces inPara take fmt)

/-- `SplitPara`: the runs that stay, cut off at `inPara`. -/
def headRuns (inPara : Int) (rs : List PWRun) : List PWRun :=
  (rs.filter (fun r => decide (¬ r.start ≥ inPara))).map
    (fun r => if r.rEnd > inPara then { r with length := inPara - r.start } else r)

/-- `SplitPara`: what the new paragraph gets of one run. -/
def tailPieces (inPara : Int) (r : PWRun) : List PWRun :=
  if r.start ≥ inPara then [⟨r.start - inPara, r.length, r.format⟩]
  else if r.rEnd > inPara then [⟨0, r.rEnd - inPara, r.format⟩]
  else []

def tailRuns (inPara : Int) (rs : List PWRun) : List PWRun := rs.flatMap (tailPieces inPara)

def shiftRuns (boundary : Int) (rs : List PWRun) : List PWRun :=
  rs.map (fun r => { r with start := r.start + boundary })

/-- `NormalizeRuns`: the loop body. -/
def mergeRun (merged : List PWRun) (r : PWRun) : List PWRun :=
  if r.length ≤ 0 then merged
  else match merged.getLast? with
    | some last =>
      if last.format = r.format ∧ last.rEnd = r.start then
        merged.dropLast ++ [{ last with length := last.length + r.length }]
      else merged ++ [r]
    | none => [r]

def normalizeRuns (dflt : PWCharFormat) (textSize : Nat) (rs : List PWRun) : List PWRun :=
  match rs.foldl mergeRun [] with
  | []     => [⟨0, textSize, dflt⟩]
  | merged => merged

/-! ## Tiling -/

/-- The runs stand end to end from `a` to `b`. -/
def Tiles : Int → List PWRun → Int → Prop
  | a, [], b      => a = b
  | a, r :: rs, b => r.start = a ∧ 0 ≤ r.length ∧ Tiles r.rEnd rs b

def formats (rs : List PWRun) : List PWCharFormat := rs.flatMap (fun r => List.replicate r.length.toNat r.format)

@[simp] theorem formats_nil : formats [] = [] := rfl

@[simp] theorem formats_cons (r : PWRun) (rs : List PWRun) :
    formats (r :: rs) = List.replicate r.length.toNat r.format ++ formats rs := rfl

@[simp] theorem formats_append (rs rs' : List PWRun) : formats (rs ++ rs') = formats rs ++ formats rs' :=
  flatMap_append

@[simp] theorem formats_shiftRuns (c : Int) (rs : List PWRun) : formats (shiftRuns c rs) = formats rs := by
  simp [formats, shiftRuns, flatMap_map]

theorem Tiles.le : ∀ {a b : Int} {rs : List PWRun}, Tiles a rs b → a ≤ b
  | a, b, [], h => by
    have : a = b := h
    omega
  | a, b, r :: rs, ⟨hs, hl, h⟩ => by
    have := h.le
    unfold PWRun.rEnd at this
    omega

theorem Tiles.append : ∀ {a b c : Int} {rs rs' : List PWRun}, Tiles a rs b → Tiles b rs' c → Tiles a (rs ++ rs') c
  | a, b, c, [], rs', h, h' => by
    have : a = b := h
    rw [this]; exact h'
  | a, b, c, r :: rs, rs', ⟨hs, hl, h⟩, h' => ⟨hs, hl, h.append h'⟩

theorem tiles_append_iff : ∀ {a c : Int} {rs rs' : List PWRun},
    Tiles a (rs ++ rs') c ↔ ∃ b, Tiles a rs b ∧ Tiles b rs' c
  | a, c, [], rs' => ⟨fun h => ⟨a, rfl, h⟩, fun ⟨b, h, h'⟩ => by have : a = b := h; rw [this]; exact h'⟩
  | a, c, r :: rs, rs' => by
    constructor
    · rintro ⟨hs, hl, h⟩
      obtain ⟨b, h, h'⟩ := tiles_append_iff.1 h
      exact ⟨b, ⟨hs, hl, h⟩, h'⟩
    · rintro ⟨b, ⟨hs, hl, h⟩, h'⟩
      exact ⟨hs, hl, h.append h'⟩

theorem Tiles.shift (c : Int) : ∀ {a b : Int} {rs : List PWRun}, Tiles a rs b → Tiles (a + c) (shiftRuns c rs) (b + c)
  | a, b, [], h => by
    have : a = b := h
    rw [this]; rfl
  | a, b, r :: rs, ⟨hs, hl, h⟩ => by
    have he : r.rEnd + c = ({ r with start := r.start + c } : PWRun).rEnd := by
      simp only [PWRun.rEnd]
      omega
    refine ⟨?_, hl, ?_⟩
    · show r.start + c = a + c
      rw [hs]
    · exact he ▸ Tiles.shift c h

theorem Tiles.length_formats : ∀ {a b : Int} {rs : List PWRun}, Tiles a rs b → (formats rs).length = (b - a).toNat
  | a, b, [], h => by
    have : a = b := h
    simp [this]
  | a, b, r :: rs, ⟨hs, hl, h⟩ => by
    have h1 := h.le
    have h2 := h.length_formats
    unfold PWRun.rEnd at h1 h2
    rw [formats_cons, length_append, length_replicate, h2]
    omega

theorem Tiles.mem {a b : Int} {rs : List PWRun} (h : Tiles a rs b) : ∀ r ∈ rs, a ≤ r.start ∧ 0 ≤ r.length ∧ r.rEnd ≤ b := by
  induction rs generalizing a with
  | nil => exact forall_mem_nil _
  | cons x rs ih =>
    obtain ⟨hs, hl, h⟩ := h
    have h1 := h.le
    refine forall_mem_cons.2 ⟨⟨by omega, hl, h1⟩, fun r hr => ?_⟩
    obtain ⟨h2, h3, h4⟩ := ih h r hr
    unfold PWRun.rEnd at h2
    exact ⟨by omega, h3, h4⟩

theorem Tiles.getElem?_formats : ∀ {a b : Int} {rs : List PWRun}, Tiles a rs b → ∀ (r : PWRun) (k : Nat), r ∈ rs →
    r.start ≤ a + k → a + k < r.rEnd → (formats rs)[k]? = some r.format
  | a, b, x :: rs, ⟨hs, hl, h⟩, r, k, hr, h1, h2 => by
    unfold PWRun.rEnd at h2
    rw [formats_cons]
    rcases mem_cons.1 hr with rfl | hr
    · rw [getElem?_append_left (by rw [length_replicate]; omega), getElem?_replicate,
        if_pos (by omega)]
    have h3 := (h.mem r hr).1
    have hx : x.rEnd = x.start + x.length := rfl
    rw [getElem?_append_right (by rw [length_replicate]; omega), length_replicate]
    exact h.getElem?_formats r _ hr (by omega) (by unfold PWRun.rEnd; omega)

theorem Tiles.exists_run : ∀ {a b : Int} {rs : List PWRun}, Tiles a rs b → ∀ (k : Int), a ≤ k → k < b →
    ∃ r ∈ rs, r.start ≤ k ∧ k < r.rEnd
  | a, b, [], h, k, h1, h2 => by
    have : a = b := h
    omega
  | a, b, x :: rs, ⟨hs, hl, h⟩, k, h1, h2 => by
    by_cases hk : k < x.rEnd
    · exact ⟨x, mem_cons_self, by omega, hk⟩
    · obtain ⟨r, hr, h3⟩ := h.exists_run k (by omega) h2
      exact ⟨r, mem_cons_of_mem _ hr, h3⟩

/-! ## `NormalizeRuns` -/

theorem mergeRun_spec {merged : List PWRun} {c : Int} {r : PWRun} (hm : Tiles 0 merged c)
    (hp : ∀ x ∈ merged, 0 < x.length) (hs : r.start = c) (hl : 0 ≤ r.length) :
    Tiles 0 (mergeRun merged r) r.rEnd ∧ (∀ x ∈ mergeRun merged r, 0 < x.length) ∧
      formats (mergeRun merged r) = formats merged ++ List.replicate r.length.toNat r.format := by
  have hr : r.rEnd = r.start + r.length := rfl
  unfold mergeRun
  by_cases h0 : r.length ≤ 0
  · rw [if_pos h0, show r.length.toNat = 0 by omega, show r.rEnd = c by omega]
    exact ⟨hm, hp, by simp⟩
  rw [if_neg h0]
  cases hlast : merged.getLast? with
  | none =>
    rw [getLast?_eq_none_iff] at hlast
    subst hlast
    have h0c : (0 : Int) = c := hm
    refine ⟨⟨by omega, hl, rfl⟩, ?_, by simp⟩
    simp only [mem_singleton, forall_eq]
    omega
  | some last =>
    obtain ⟨pre, rfl⟩ := getLast?_eq_some_iff.1 hlast
    obtain ⟨b, hb, hlb, hll, hlc⟩ := tiles_append_iff.1 hm
    have hpos := hp last (by simp)
    have hle : last.rEnd = last.start + last.length := rfl
    have hc : last.rEnd = c := hlc
    dsimp only
    split
    · rename_i hf
      refine ⟨?_, ?_, ?_⟩
      · rw [dropLast_concat]
        refine hb.append ⟨hlb, by simp only; omega, ?_⟩
        simp only [Tiles, PWRun.rEnd]
        omega
      · intro x hx
        rw [dropLast_concat, mem_append, mem_singleton] at hx
        rcases hx with hx | rfl
        · exact hp x (by simp [hx])
        · simp only
          omega
      · rw [dropLast_concat, formats_append, formats_append, formats_cons, formats_cons, append_assoc]
        simp only [formats_nil, append_nil]
        rw [← hf.1, replicate_append_replicate]
        congr 2
        omega
    · refine ⟨hm.append ⟨by omega, hl, rfl⟩, ?_, by simp⟩
      intro x hx
      rw [mem_append, mem_singleton] at hx
      rcases hx with hx | rfl
      · exact hp x hx
      · omega

theorem foldl_mergeRun : ∀ {rs merged : List PWRun} {c n : Int}, Tiles 0 merged c → (∀ x ∈ merged, 0 < x.length) →
    Tiles c rs n → Tiles 0 (rs.foldl mergeRun merged) n ∧ (∀ x ∈ rs.foldl mergeRun merged, 0 < x.length) ∧
      formats (rs.foldl mergeRun merged) = formats merged ++ formats rs
  | [], merged, c, n, hm, hp, h => by
    have : c = n := h
    subst this
    exact ⟨hm, hp, by simp⟩
  | r :: rs, merged, c, n, hm, hp, ⟨hs, hl, h⟩ => by
    obtain ⟨h1, h2, h3⟩ := mergeRun_spec hm hp hs hl
    obtain ⟨h4, h5, h6⟩ := foldl_mergeRun h1 h2 h
    refine ⟨h4, h5, ?_⟩
    rw [foldl_cons, h6, h3, formats_cons, append_assoc]

/-- **`NormalizeRuns` keeps the tiling and the formats.** -/
theorem normalizeRuns_spec (dflt : PWCharFormat) {rs : List PWRun} {n : Nat} (h : Tiles 0 rs n) :
    Tiles 0 (normalizeRuns dflt n rs) n ∧ formats (normalizeRuns dflt n rs) = formats rs := by
  obtain ⟨h1, -, h3⟩ := foldl_mergeRun (show Tiles 0 [] 0 from rfl) (by simp) h
  rw [formats_nil, nil_append] at h3
  unfold normalizeRuns
  split
  · rename_i he
    rw [he] at h1 h3
    have h0 : (0 : Int) = n := h1
    have : n = 0 := by omega
    subst this
    exact ⟨⟨rfl, Int.le_refl 0, rfl⟩, by rw [← h3]; rfl⟩
  · exact ⟨h1, h3⟩

/-- After `NormalizeRuns` the first run holds the first byte's format; with no byte, the default's. -/
theorem head_normalizeRuns (dflt : PWCharFormat) {rs : List PWRun} {n : Nat} (h : Tiles 0 rs n) :
    ∃ r rest, normalizeRuns dflt n rs = r :: rest ∧ r.format = (formats rs).head?.getD dflt := by
  obtain ⟨h1, h2, h3⟩ := foldl_mergeRun (show Tiles 0 [] 0 from rfl) (by simp) h
  rw [formats_nil, nil_append] at h3
  unfold normalizeRuns
  split
  · rename_i he
    rw [he] at h3
    exact ⟨_, _, rfl, by rw [← h3]; rfl⟩
  cases hm : rs.foldl mergeRun [] with
  | nil => contradiction
  | cons r rest =>
    have hr : 0 < r.length := h2 r (by rw [hm]; exact mem_cons_self)
    refine ⟨r, rest, rfl, ?_⟩
    rw [← h3, hm, formats_cons, show r.length.toNat = (r.length.toNat - 1) + 1 by omega, replicate_succ]
    rfl

/-! ## Insertion -/

theorem sinkLast_front : ∀ {B : List PWRun} {r : PWRun}, (∀ x ∈ B, r.start < x.start) → sinkLast (B ++ [r]) = r :: B
  | [], r, _ => rfl
  | x :: B, r, h => by
    have hx := h x mem_cons_self
    rw [cons_append, sinkLast, sinkLast_front (fun y hy => h y (mem_cons_of_mem _ hy))]
    dsimp only
    rw [if_pos hx]

theorem sinkLast_behind : ∀ {A L M : List PWRun}, sinkLast L = M → (A ++ M).Pairwise (fun x y => x.start ≤ y.start) →
    sinkLast (A ++ L) = A ++ M
  | [], L, M, h, _ => h
  | x :: A, L, M, h, hs => by
    rw [cons_append, sinkLast, sinkLast_behind h hs.of_cons]
    rw [cons_append] at hs ⊢
    cases hAM : A ++ M with
    | nil => rfl
    | cons y rest =>
      rw [hAM] at hs
      have hxy : x.start ≤ y.start := rel_of_pairwise_cons hs mem_cons_self
      dsimp only
      rw [if_neg (by omega)]

theorem Tiles.split_at {inPara : Int} : ∀ {a b : Int} {rs : List PWRun}, Tiles a rs b → a ≤ inPara → inPara ≤ b →
    (∃ A r B, rs = A ++ r :: B ∧ Tiles a A r.start ∧ r.start < inPara ∧ inPara < r.rEnd ∧ Tiles r.rEnd B b) ∨
    (∃ A B, rs = A ++ B ∧ Tiles a A inPara ∧ Tiles inPara B b ∧ ∀ r ∈ B, inPara < r.rEnd)
  | a, b, [], h, h1, h2 => by
    have hab : a = b := h
    refine Or.inr ⟨[], [], rfl, ?_, ?_, by simp⟩ <;> show _ = _ <;> omega
  | a, b, x :: rs, ⟨hs, hl, h⟩, h1, h2 => by
    have hx : x.rEnd = x.start + x.length := rfl
    by_cases hin : x.rEnd ≤ inPara
    · rcases h.split_at hin h2 with ⟨A, r, B, rfl, hA, h3⟩ | ⟨A, B, rfl, hA, h3⟩
      · exact Or.inl ⟨x :: A, r, B, rfl, ⟨hs, hl, hA⟩, h3⟩
      · exact Or.inr ⟨x :: A, B, rfl, ⟨hs, hl, hA⟩, h3⟩
    by_cases hlt : x.start < inPara
    · exact Or.inl ⟨[], x, rs, rfl, hs.symm, hlt, by omega, h⟩
    have ha : a = inPara := by omega
    subst ha
    refine Or.inr ⟨[], x :: rs, rfl, rfl, ⟨hs, hl, h⟩, fun r hr => ?_⟩
    rcases mem_cons.1 hr with rfl | hr
    · omega
    have := (h.mem r hr).1
    have := (h.mem r hr).2.1
    unfold PWRun.rEnd at *
    omega

theorem flatMap_insertPieces_before {inPara len : Int} {f : PWCharFormat} (h0 : inPara ≠ 0) : ∀ {A : List PWRun},
    (∀ r ∈ A, r.start ≤ r.rEnd ∧ r.rEnd ≤ inPara) → A.flatMap (insertPieces inPara len f) = A
  | [], _ => rfl
  | r :: A, h => by
    obtain ⟨h1, h2⟩ := h r mem_cons_self
    rw [flatMap_cons, flatMap_insertPieces_before h0 (fun x hx => h x (mem_cons_of_mem _ hx))]
    have : insertPieces inPara len f r = [r] := by
      unfold insertPieces
      rw [if_neg (by omega)]
      split
      · rfl
      · rw [if_neg (by omega)]
    rw [this]
    rfl

theorem flatMap_insertPieces_after {inPara len : Int} {f : PWCharFormat} : ∀ {B : List PWRun},
    (∀ r ∈ B, inPara ≤ r.start ∧ (inPara < r.rEnd ∨ inPara = 0)) → B.flatMap (insertPieces inPara len f) = shiftRuns len B
  | [], _ => rfl
  | r :: B, h => by
    obtain ⟨h1, h2⟩ := h r mem_cons_self
    rw [flatMap_cons, flatMap_insertPieces_after (fun x hx => h x (mem_cons_of_mem _ hx))]
    have : insertPieces inPara len f r = [{ r with start := r.start + len }] := by
      unfold insertPieces
      rw [if_neg (by omega), if_neg (by omega), if_pos h1]
    rw [this]
    rfl

theorem Tiles.starts_sorted : ∀ {a b : Int} {rs : List PWRun}, Tiles a rs b →
    rs.Pairwise (fun x y => x.start ≤ y.start)
  | _, _, [], _ => List.Pairwise.nil
  | a, b, r :: rs, ⟨_, hl, h⟩ => by
    refine pairwise_cons.2 ⟨fun x hx => ?_, h.starts_sorted⟩
    have h1 := (h.mem x hx).1
    unfold PWRun.rEnd at h1
    omega

theorem length_shiftRuns (c : Int) (rs : List PWRun) : (shiftRuns c rs).length = rs.length := by simp [shiftRuns]

theorem mem_shiftRuns {c : Int} {rs : List PWRun} {x : PWRun} (h : x ∈ shiftRuns c rs) :
    ∃ r ∈ rs, x = { r with start := r.start + c } := by
  obtain ⟨r, hr, rfl⟩ := mem_map.1 h
  exact ⟨r, hr, rfl⟩

/-- **The runs after an insertion tile the longer text, and their formats are the inserted ones spliced in.** -/
theorem insertRuns_spec {inPara len n : Nat} {f : PWCharFormat} {rs : List PWRun} (h : Tiles 0 rs n) (hat : inPara ≤ n)
    (hlen : 0 < len) :
    Tiles 0 (insertRuns inPara len f rs) ((n + len : Nat) : Int) ∧
      formats (insertRuns inPara len f rs) = insertAt inPara (List.replicate len f) (formats rs) := by
  have hshift : ∀ {a : Int} {B : List PWRun}, Tiles a B n → Tiles (a + len) (shiftRuns len B) ((n + len : Nat) : Int) :=
    fun hB => by
      have := hB.shift len
      rwa [Int.natCast_add]
  rcases h.split_at (Int.natCast_nonneg inPara) (by omega) with ⟨A, r, B, rfl, hA, h1, h2, hB⟩ | ⟨A, B, rfl, hA, hB, hend⟩
  · -- inside the run `r`: its two halves and the new run between them
    have hr : r.rEnd = r.start + r.length := rfl
    have hAm := fun x hx => hA.mem x hx
    have hA0 : 0 ≤ r.start := hA.le
    have eA : A.flatMap (insertPieces inPara len f) = A :=
      flatMap_insertPieces_before (by omega) (fun x hx => by
        have := hAm x hx
        unfold PWRun.rEnd at *
        omega)
    have eB : B.flatMap (insertPieces inPara len f) = shiftRuns len B :=
      flatMap_insertPieces_after (fun x hx => by
        have h3 := hB.mem x hx
        have hx : x.rEnd = x.start + x.length := rfl
        omega)
    have er : insertPieces inPara len f r =
        [⟨r.start, inPara - r.start, r.format⟩, ⟨inPara, len, f⟩, ⟨inPara + len, r.rEnd - inPara, r.format⟩] := by
      unfold insertPieces
      rw [if_pos ⟨by omega, h2⟩]
    have hruns : insertRuns inPara len f (A ++ r :: B) = A ++
        ([⟨r.start, inPara - r.start, r.format⟩, ⟨inPara, len, f⟩, ⟨inPara + len, r.rEnd - inPara, r.format⟩] ++ shiftRuns len B) := by
      unfold insertRuns
      rw [flatMap_append, flatMap_cons, eA, er, eB]
      dsimp only
      rw [if_neg (by simp [length_shiftRuns]; omega)]
    have hlenA := hA.length_formats
    rw [hruns]
    constructor
    · refine hA.append ⟨rfl, by dsimp only; omega, ?_⟩
      refine ⟨by simp only [PWRun.rEnd]; omega, by dsimp only; omega, ?_⟩
      refine ⟨by simp only [PWRun.rEnd], by dsimp only; omega, ?_⟩
      have := hshift hB
      rw [show r.rEnd + (len : Int) = (⟨inPara + len, r.rEnd - inPara, r.format⟩ : PWRun).rEnd by
        simp only [PWRun.rEnd]; omega] at this
      exact this
    · obtain ⟨i, hi⟩ := Int.eq_ofNat_of_zero_le (show 0 ≤ (inPara : Int) - r.start by omega)
      obtain ⟨j, hj⟩ := Int.eq_ofNat_of_zero_le (show 0 ≤ r.rEnd - inPara by omega)
      have hrep : List.replicate r.length.toNat r.format = List.replicate i r.format ++ List.replicate j r.format := by
        rw [replicate_append_replicate]
        congr 1
        omega
      simp only [formats_append, formats_cons, formats_nil, formats_shiftRuns, append_nil, hrep, hi, hj,
        Int.toNat_natCast, append_assoc]
      rw [show inPara = (formats A).length + i by omega, insertAt_append_right,
        insertAt_length (length_replicate ..)]
  · -- between two runs
    have hBm := fun x hx => hB.mem x hx
    have hlenA := hA.length_formats
    have hform : insertAt inPara (List.replicate len f) (formats (A ++ B)) =
        formats A ++ (List.replicate len f ++ formats B) := by
      rw [formats_append, show inPara = (formats A).length + 0 by omega, insertAt_append_right]
      simp [insertAt]
    -- the runs up to `inPara` stay, the others move: when nothing stands before them, all of them move
    obtain ⟨A', B', hAB, hA', hB', hkeep, hmove⟩ : ∃ A' B', A ++ B = A' ++ B' ∧ Tiles 0 A' inPara ∧ Tiles inPara B' n ∧
        A'.flatMap (insertPieces inPara len f) = A' ∧ B'.flatMap (insertPieces inPara len f) = shiftRuns len B' := by
      by_cases h0 : inPara = 0
      · subst h0
        refine ⟨[], A ++ B, rfl, rfl, hA.append hB, rfl, flatMap_insertPieces_after (fun x hx => ?_)⟩
        exact ⟨((hA.append hB).mem x hx).1, Or.inr rfl⟩
      refine ⟨A, B, rfl, hA, hB, flatMap_insertPieces_before (by omega) (fun x hx => ?_),
        flatMap_insertPieces_after (fun x hx => ⟨(hBm x hx).1, Or.inl (hend x hx)⟩)⟩
      have := hA.mem x hx
      unfold PWRun.rEnd at *
      omega
    have hruns : insertRuns inPara len f (A ++ B) = A' ++ ⟨inPara, len, f⟩ :: shiftRuns len B' := by
      unfold insertRuns
      rw [hAB, flatMap_append, hkeep, hmove]
      dsimp only
      rw [if_pos (by simp [length_shiftRuns]), append_assoc]
      have hgt : ∀ x ∈ shiftRuns len B', (inPara : Int) < x.start := fun x hx => by
        obtain ⟨y, hy, rfl⟩ := mem_shiftRuns hx
        have := (hB'.mem y hy).1
        dsimp only
        omega
      refine sinkLast_behind (sinkLast_front hgt) (pairwise_append.2 ⟨hA'.starts_sorted, ?_, ?_⟩)
      · exact pairwise_cons.2 ⟨fun x hx => Int.le_of_lt (hgt x hx), (hshift hB').starts_sorted⟩
      · intro x hx y hy
        have h3 := hA'.mem x hx
        have hx' : x.rEnd = x.start + x.length := rfl
        rcases mem_cons.1 hy with rfl | hy
        · dsimp only
          omega
        · have := hgt y hy
          omega
    rw [hruns, hform]
    constructor
    · refine hA'.append ⟨rfl, by dsimp only; omega, ?_⟩
      exact hshift hB'
    · have he : formats A' ++ formats B' = formats A ++ formats B := by
        rw [← formats_append, ← formats_append, hAB]
      have hlen' : (formats A').length = (formats A).length := by rw [hA'.length_formats, hlenA]
      obtain ⟨heA, heB⟩ := append_inj he hlen'
      simp [heA, heB]

/-! ## Removal, restyling and splitting

One run at a time: the pieces of a run tile what the surgery leaves of it, and cut or restyle its formats. -/

/-- Where the removal of `[i, i + t)` leaves a position. -/
def closeUp (i t x : Int) : Int := if x ≤ i then x else if x ≤ i + t then i else x - t

theorem tiles_erasePieces {i t : Int} {r : PWRun} (ht : 0 < t) (hl : 0 ≤ r.length) :
    Tiles (closeUp i t r.start) (erasePieces i t r) (closeUp i t r.rEnd) := by
  have hr : r.rEnd = r.start + r.length := rfl
  unfold erasePieces closeUp
  by_cases hout : r.rEnd ≤ i ∨ r.start ≥ i + t
  · rw [if_pos hout]
    by_cases h : r.start ≥ i + t
    · rw [if_pos h]
      refine ⟨?_, hl, ?_⟩ <;> simp only [Tiles, PWRun.rEnd] <;> split_ifs <;> omega
    · rw [if_neg h]
      refine ⟨?_, hl, show r.rEnd = _ from ?_⟩ <;> split_ifs <;> omega
  · rw [if_neg hout]
    split_ifs <;> simp only [append_nil, nil_append, cons_append, Tiles, PWRun.rEnd, true_and] <;> omega

theorem cut_replicate {α : Type*} (i j n : Nat) (x : α) :
    cut i j (List.replicate n x) = List.replicate (min i n + (n - j)) x := by
  rw [cut, take_replicate, drop_replicate, replicate_append_replicate]

theorem formats_erasePieces {i t : Int} {r : PWRun} (ht : 0 < t) (hl : 0 ≤ r.length) :
    formats (erasePieces i t r) =
      cut (i - r.start).toNat (i + t - r.start).toNat (List.replicate r.length.toNat r.format) := by
  have hr : r.rEnd = r.start + r.length := rfl
  rw [cut_replicate]
  unfold erasePieces
  by_cases hout : r.rEnd ≤ i ∨ r.start ≥ i + t
  · rw [if_pos hout]
    split <;> simp only [formats_cons, formats_nil, append_nil] <;> congr 1 <;> omega
  rw [if_neg hout]
  split_ifs <;>
    simp only [append_nil, nil_append, cons_append, formats_cons, formats_nil,
      replicate_append_replicate] <;>
    first
    | (congr 1; omega)
    | rw [show min (i - r.start).toNat r.length.toNat + (r.length.toNat - (i + t - r.start).toNat) = 0 by omega,
        replicate_zero]

theorem tiles_eraseRuns {i t : Int} (ht : 0 < t) : ∀ {a b : Int} {rs : List PWRun}, Tiles a rs b →
    Tiles (closeUp i t a) (eraseRuns i t rs) (closeUp i t b)
  | a, b, [], h => by
    have : a = b := h
    rw [this]; rfl
  | a, b, r :: rs, ⟨hs, hl, h⟩ => hs ▸ (tiles_erasePieces ht hl).append (tiles_eraseRuns ht h)

theorem formats_eraseRuns {i t : Int} (ht : 0 < t) : ∀ {a b : Int} {rs : List PWRun}, Tiles a rs b →
    formats (eraseRuns i t rs) = cut (i - a).toNat (i + t - a).toNat (formats rs)
  | a, b, [], _ => by simp [eraseRuns, cut]
  | a, b, r :: rs, ⟨hs, hl, h⟩ => by
    subst hs
    have hr : r.rEnd = r.start + r.length := rfl
    rw [eraseRuns, flatMap_cons, formats_append, formats_erasePieces ht hl, formats_cons,
      cut_append (by omega), length_replicate]
    congr 1
    have ih := formats_eraseRuns (i := i) ht h
    rw [eraseRuns] at ih
    rw [ih]
    congr 1 <;> omega

/-- **The runs around a hole tile the shorter text, and the hole's formats are gone.** -/
theorem eraseRuns_spec {i t n : Nat} {rs : List PWRun} (h : Tiles 0 rs n) (ht : 0 < t) (hit : i + t ≤ n) :
    Tiles 0 (eraseRuns i t rs) ((n - t : Nat) : Int) ∧ formats (eraseRuns i t rs) = cut i (i + t) (formats rs) := by
  have h1 := tiles_eraseRuns (i := i) (t := t) (by omega) h
  have h2 := formats_eraseRuns (i := i) (t := t) (by omega) h
  have e1 : closeUp i t 0 = 0 := by unfold closeUp; split_ifs <;> omega
  have e2 : closeUp i t n = ((n - t : Nat) : Int) := by unfold closeUp; split_ifs <;> omega
  rw [e1, e2] at h1
  refine ⟨h1, ?_⟩
  rw [h2]
  congr 1

theorem tiles_stylePieces {i t : Int} {fmt : PWCharFormat} {r : PWRun} (ht : 0 < t) (hl : 0 ≤ r.length) :
    Tiles r.start (stylePieces i t fmt r) r.rEnd := by
  have hr : r.rEnd = r.start + r.length := rfl
  unfold stylePieces
  by_cases hout : r.rEnd ≤ i ∨ r.start ≥ i + t
  · rw [if_pos hout]
    exact ⟨rfl, hl, rfl⟩
  · rw [if_neg hout]
    split_ifs <;> simp only [append_nil, nil_append, cons_append, Tiles, PWRun.rEnd, true_and] <;> omega

theorem mapSpan_const_replicate {α : Type*} {i j : Nat} (hij : i ≤ j) (n : Nat) (x y : α) :
    mapSpan i j (fun _ => y) (List.replicate n x) =
      List.replicate (min i n) x ++ (List.replicate (min j n - min i n) y ++ List.replicate (n - min j n) x) := by
  apply ext_getElem?
  intro k
  rw [mapSpan_getElem?, getElem?_append, getElem?_append]
  simp only [length_replicate, getElem?_replicate]
  split_ifs <;> first | rfl | (exfalso; omega)

theorem formats_stylePieces {i t : Int} {fmt : PWCharFormat} {r : PWRun} (ht : 0 < t) (hl : 0 ≤ r.length) :
    formats (stylePieces i t fmt r) =
      mapSpan (i - r.start).toNat (i + t - r.start).toNat (fun _ => fmt) (List.replicate r.length.toNat r.format) := by
  have hr : r.rEnd = r.start + r.length := rfl
  rw [mapSpan_const_replicate (by omega)]
  unfold stylePieces
  by_cases hout : r.rEnd ≤ i ∨ r.start ≥ i + t
  · rw [if_pos hout]
    have hz : min (i + t - r.start).toNat r.length.toNat - min (i - r.start).toNat r.length.toNat = 0 := by omega
    rw [hz, replicate_zero, nil_append, replicate_append_replicate, formats_cons, formats_nil,
      append_nil]
    congr 1
    omega
  · rw [if_neg hout]
    have e1 : formats (if r.start < i then [⟨r.start, i - r.start, r.format⟩] else []) =
        List.replicate (min (i - r.start).toNat r.length.toNat) r.format := by
      split_ifs
      · simp only [formats_cons, formats_nil, append_nil]
        congr 1
        omega
      · rw [show min (i - r.start).toNat r.length.toNat = 0 by omega]
        rfl
    have e2 : formats (if r.rEnd > i + t then [⟨i + t, r.rEnd - i - t, r.format⟩] else []) =
        List.replicate (r.length.toNat - min (i + t - r.start).toNat r.length.toNat) r.format := by
      split_ifs
      · simp only [formats_cons, formats_nil, append_nil]
        congr 1
        omega
      · rw [show r.length.toNat - min (i + t - r.start).toNat r.length.toNat = 0 by omega]
        rfl
    rw [formats_append, formats_append, e1, e2, formats_cons, formats_nil, append_nil, append_assoc]
    congr 3
    dsimp only
    omega

/-- **Restyling keeps the tiling and sets the formats of the span.** -/
theorem styleRuns_spec {i t : Int} {fmt : PWCharFormat} (ht : 0 < t) : ∀ {a b : Int} {rs : List PWRun}, Tiles a rs b →
    Tiles a (styleRuns i t fmt rs) b ∧
      formats (styleRuns i t fmt rs) = mapSpan (i - a).toNat (i + t - a).toNat (fun _ => fmt) (formats rs)
  | a, b, [], h => ⟨h, rfl⟩
  | a, b, r :: rs, ⟨hs, hl, h⟩ => by
    subst hs
    have hr : r.rEnd = r.start + r.length := rfl
    have ih : Tiles r.rEnd (styleRuns i t fmt rs) b ∧ _ := styleRuns_spec ht h
    obtain ⟨h1, h2⟩ := ih
    unfold styleRuns at *
    rw [flatMap_cons]
    refine ⟨(tiles_stylePieces ht hl).append h1, ?_⟩
    rw [formats_append, formats_stylePieces ht hl, h2, formats_cons, mapSpan_append, length_replicate]
    congr 2 <;> omega

/-- **The runs a split leaves tile the first `k` bytes.** -/
theorem headRuns_spec {k : Int} : ∀ {a b : Int} {rs : List PWRun}, Tiles a rs b →
    Tiles (min a k) (headRuns k rs) (min b k) ∧ formats (headRuns k rs) = (formats rs).take (k - a).toNat
  | a, b, [], h => by
    have : a = b := h
    subst this
    exact ⟨rfl, by simp [headRuns]⟩
  | a, b, r :: rs, ⟨hs, hl, h⟩ => by
    subst hs
    have hr : r.rEnd = r.start + r.length := rfl
    obtain ⟨h1, h2⟩ := headRuns_spec (k := k) h
    unfold headRuns at *
    by_cases hk : r.start ≥ k
    · rw [filter_cons_of_neg (by simpa using hk)]
      rw [show min r.rEnd k = min r.start k by omega] at h1
      refine ⟨h1, ?_⟩
      rw [h2, show (k - r.rEnd).toNat = 0 by omega, show (k - r.start).toNat = 0 by omega]
      rfl
    rw [filter_cons_of_pos (by simpa using hk), map_cons]
    by_cases he : r.rEnd > k
    · rw [if_pos he]
      rw [show min r.rEnd k = k by omega] at h1
      refine ⟨⟨by dsimp only; omega, by dsimp only; omega, ?_⟩, ?_⟩
      · rw [show (⟨r.start, k - r.start, r.format⟩ : PWRun).rEnd = k by simp only [PWRun.rEnd]; omega]
        exact h1
      · rw [formats_cons, h2, formats_cons, show (k - r.rEnd).toNat = 0 by omega, take_zero, append_nil,
          take_append_of_le_length (by rw [length_replicate]; omega), take_replicate]
        congr 1
        dsimp only
        omega
    · rw [if_neg he]
      rw [show min r.rEnd k = r.rEnd by omega] at h1
      refine ⟨⟨by omega, hl, h1⟩, ?_⟩
      have hlen : (List.replicate r.length.toNat r.format).length ≤ (k - r.start).toNat := by
        rw [length_replicate]
        omega
      rw [formats_cons, h2, formats_cons, List.take_append, take_of_length_le hlen, length_replicate]
      congr 2
      omega

/-- **The runs a split hands on tile the rest.** -/
theorem tailRuns_spec {k : Int} : ∀ {a b : Int} {rs : List PWRun}, Tiles a rs b →
    Tiles (max a k - k) (tailRuns k rs) (max b k - k) ∧ formats (tailRuns k rs) = (formats rs).drop (k - a).toNat
  | a, b, [], h => by
    have : a = b := h
    subst this
    exact ⟨rfl, by simp [tailRuns]⟩
  | a, b, r :: rs, ⟨hs, hl, h⟩ => by
    subst hs
    have hr : r.rEnd = r.start + r.length := rfl
    obtain ⟨h1, h2⟩ := tailRuns_spec (k := k) h
    unfold tailRuns at *
    rw [flatMap_cons, formats_append, h2, formats_cons, drop_append, length_replicate,
      drop_replicate, show (k - r.start).toNat - r.length.toNat = (k - r.rEnd).toNat by omega]
    unfold tailPieces
    by_cases hk : r.start ≥ k
    · rw [if_pos hk]
      rw [show max r.rEnd k = r.rEnd by omega] at h1
      refine ⟨⟨by dsimp only; omega, hl, ?_⟩, ?_⟩
      · rw [show (⟨r.start - k, r.length, r.format⟩ : PWRun).rEnd = r.rEnd - k by simp only [PWRun.rEnd]; omega]
        exact h1
      · rw [show (k - r.start).toNat = 0 by omega]
        simp
    · rw [if_neg hk]
      by_cases he : r.rEnd > k
      · rw [if_pos he]
        rw [show max r.rEnd k = r.rEnd by omega] at h1
        refine ⟨⟨by dsimp only; omega, by dsimp only; omega, ?_⟩, ?_⟩
        · rw [show (⟨0, r.rEnd - k, r.format⟩ : PWRun).rEnd = r.rEnd - k by simp only [PWRun.rEnd]; omega]
          exact h1
        · simp only [formats_cons, formats_nil, append_nil]
          congr 2
          omega
      · rw [if_neg he]
        rw [show max r.rEnd k = k by omega] at h1
        refine ⟨?_, ?_⟩
        · rw [show max r.start k = k by omega]
          exact h1
        · rw [show r.length.toNat - (k - r.start).toNat = 0 by omega]
          simp
end Writer
end Prose
