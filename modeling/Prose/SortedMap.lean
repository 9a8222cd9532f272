import Mathlib.Order.Defs.LinearOrder
import Mathlib.Data.List.Basic
import Mathlib.Data.List.Sort
/-!
# SortedMap — a finite map as its entries in key order

The entry list carries its own order, so a key occurs once and two maps that answer every lookup alike are equal
(`SortedMap.ext_get?`).  `put f src m` writes the entries of `src` into `m` under the keys `f` gives them, in key
order, the way a loop over an ordered map does.
-/

structure SortedMap (κ α : Type) [LinearOrder κ] where
  entries : List (κ × α)
  sorted : entries.Pairwise (fun a b => a.1 < b.1)
deriving DecidableEq

namespace SortedMap

open List

variable {κ α : Type} [LinearOrder κ]

def empty : SortedMap κ α := ⟨[], List.Pairwise.nil⟩

instance : Inhabited (SortedMap κ α) := ⟨empty⟩

def get? (m : SortedMap κ α) (k : κ) : Option α := (m.entries.find? (fun e => decide (e.1 = k))).map Prod.snd

def setEntry (k : κ) (v : α) : List (κ × α) → List (κ × α)
  | []     => [(k, v)]
  | e :: l => if k < e.1 then (k, v) :: e :: l else if e.1 = k then (k, v) :: l else e :: setEntry k v l

theorem mem_setEntry {k : κ} {v : α} {e : κ × α} : ∀ {l : List (κ × α)}, l.Pairwise (fun a b => a.1 < b.1) →
    (e ∈ setEntry k v l ↔ e = (k, v) ∨ (e.1 ≠ k ∧ e ∈ l))
  | [], _ => by simp [setEntry]
  | x :: l, h => by
    have hx : ∀ y ∈ l, x.1 < y.1 := fun y hy => rel_of_pairwise_cons h hy
    unfold setEntry
    split
    · rename_i hk
      have hne : ∀ y ∈ x :: l, y.1 ≠ k := by
        intro y hy
        rcases mem_cons.1 hy with rfl | hy
        · exact ne_of_gt hk
        · exact ne_of_gt (lt_trans hk (hx y hy))
      rw [mem_cons]
      exact or_congr_right ⟨fun he => ⟨hne e he, he⟩, fun he => he.2⟩
    · split
      · rename_i hk
        have hne : ∀ y ∈ l, y.1 ≠ k := fun y hy => by rw [← hk]; exact ne_of_gt (hx y hy)
        rw [mem_cons, mem_cons]
        refine or_congr_right ⟨fun he => ⟨hne e he, Or.inr he⟩, fun he => he.2.resolve_left ?_⟩
        intro hex
        exact he.1 (by rw [hex, hk])
      · rename_i hk
        rw [mem_cons, mem_setEntry h.of_cons, mem_cons]
        constructor
        · rintro (rfl | rfl | ⟨hne, he⟩)
          · exact Or.inr ⟨hk, Or.inl rfl⟩
          · exact Or.inl rfl
          · exact Or.inr ⟨hne, Or.inr he⟩
        · rintro (rfl | ⟨hne, rfl | he⟩)
          · exact Or.inr (Or.inl rfl)
          · exact Or.inl rfl
          · exact Or.inr (Or.inr ⟨hne, he⟩)

theorem sorted_setEntry (k : κ) (v : α) : ∀ {l : List (κ × α)}, l.Pairwise (fun a b => a.1 < b.1) →
    (setEntry k v l).Pairwise (fun a b => a.1 < b.1)
  | [], _ => by simp [setEntry]
  | x :: l, h => by
    have hx : ∀ y ∈ l, x.1 < y.1 := fun y hy => rel_of_pairwise_cons h hy
    unfold setEntry
    split
    · rename_i hk
      refine pairwise_cons.2 ⟨fun y hy => ?_, h⟩
      rcases mem_cons.1 hy with rfl | hy
      · exact hk
      · exact lt_trans hk (hx y hy)
    split
    · rename_i hk
      exact pairwise_cons.2 ⟨fun y hy => by rw [← hk]; exact hx y hy, h.of_cons⟩
    rename_i hlt hk
    refine pairwise_cons.2 ⟨fun y hy => ?_, sorted_setEntry k v h.of_cons⟩
    rcases (mem_setEntry h.of_cons).1 hy with rfl | ⟨-, hy⟩
    · exact lt_of_le_of_ne (le_of_not_gt hlt) hk
    · exact hx y hy

def set (m : SortedMap κ α) (k : κ) (v : α) : SortedMap κ α := ⟨setEntry k v m.entries, sorted_setEntry k v m.sorted⟩

def filter (p : κ → Bool) (m : SortedMap κ α) : SortedMap κ α :=
  ⟨m.entries.filter (fun e => p e.1), m.sorted.filter _⟩

/-- Every entry of `src` whose key `f` keeps, written into `m` under the key `f` gives it. -/
def put (f : κ → Option κ) (src m : SortedMap κ α) : SortedMap κ α :=
  src.entries.foldl (fun m e => match f e.1 with | some k => m.set k e.2 | none => m) m

theorem get?_eq_some {m : SortedMap κ α} {k : κ} {v : α} : m.get? k = some v ↔ (k, v) ∈ m.entries := by
  obtain ⟨l, hl⟩ := m
  simp only [get?]
  induction l with
  | nil => simp
  | cons x l ih =>
    have hx : ∀ y ∈ l, x.1 < y.1 := fun y hy => rel_of_pairwise_cons hl hy
    rw [find?_cons]
    by_cases hk : x.1 = k
    · simp only [hk, decide_true, Option.map_some, Option.some.injEq, mem_cons]
      constructor
      · rintro rfl
        exact Or.inl (by rw [← hk])
      · rintro (h | h)
        · rw [← h]
        · exact absurd hk (ne_of_lt (hx _ h))
    · simp only [hk, decide_false, ih hl.of_cons, mem_cons]
      exact ⟨Or.inr, fun h => h.resolve_left (fun h => hk (by rw [← h]))⟩

/-- **Two maps that answer every lookup alike are equal.** -/
theorem ext_get? {m m' : SortedMap κ α} (h : ∀ k, m.get? k = m'.get? k) : m = m' := by
  have hmem : ∀ e, e ∈ m.entries ↔ e ∈ m'.entries := fun (k, v) => by
    rw [← get?_eq_some, ← get?_eq_some, h]
  obtain ⟨l, hl⟩ := m
  obtain ⟨l', hl'⟩ := m'
  have hne : ∀ {a b : κ × α}, a.1 < b.1 → a ≠ b := fun hab heq => by rw [heq] at hab; exact lt_irrefl _ hab
  have hp : l.Perm l' := (perm_ext_iff_of_nodup (hl.imp hne) (hl'.imp hne)).2 hmem
  have : l = l' := hp.eq_of_pairwise (fun a b _ _ hab hba => absurd hba (lt_asymm hab)) hl hl'
  subst this
  rfl

@[simp] theorem get?_empty (k : κ) : (empty : SortedMap κ α).get? k = none := rfl

theorem get?_set (m : SortedMap κ α) (k k' : κ) (v : α) :
    (m.set k v).get? k' = if k' = k then some v else m.get? k' := by
  apply Option.ext
  intro w
  rw [get?_eq_some]
  show (k', w) ∈ setEntry k v m.entries ↔ _
  rw [mem_setEntry m.sorted]
  by_cases hk : k' = k
  · subst hk
    simp [eq_comm]
  · simp [hk, get?_eq_some]

theorem setEntry_last {k : κ} {v : α} : ∀ {l : List (κ × α)}, (∀ e ∈ l, e.1 < k) → setEntry k v l = l ++ [(k, v)]
  | [], _ => rfl
  | e :: l, h => by
    have he : e.1 < k := h e mem_cons_self
    unfold setEntry
    rw [if_neg (lt_asymm he), if_neg (ne_of_lt he), setEntry_last fun e' he' => h e' (mem_cons_of_mem e he')]
    rfl

theorem entries_foldl_set {β : Type} (key : β → κ) (val : β → α) : ∀ (l : List β) (m : SortedMap κ α),
    (m.entries.map Prod.fst ++ l.map key).Pairwise (· < ·) →
    (l.foldl (fun m b => m.set (key b) (val b)) m).entries = m.entries ++ l.map (fun b => (key b, val b))
  | [], m, _ => (append_nil _).symm
  | b :: l, m, h => by
    have hb : (m.set (key b) (val b)).entries = m.entries ++ [(key b, val b)] :=
      setEntry_last fun e he => (pairwise_append.1 h).2.2 e.1 (mem_map_of_mem he) (key b) mem_cons_self
    rw [foldl_cons, entries_foldl_set key val l, hb, append_assoc]
    · rfl
    · rw [hb, map_append, append_assoc]
      exact h

theorem mem_of_get?_foldl_set (key : α → κ) {k : κ} {v : α} : ∀ {l : List α} {m : SortedMap κ α},
    (l.foldl (fun m a => m.set (key a) a) m).get? k = some v → (v ∈ l ∧ key v = k) ∨ m.get? k = some v
  | [], _, h => Or.inr h
  | a :: l, m, h => by
    rw [foldl_cons] at h
    rcases mem_of_get?_foldl_set key h with ⟨hv, hk⟩ | h
    · exact Or.inl ⟨mem_cons_of_mem a hv, hk⟩
    rw [get?_set] at h
    split at h
    · rename_i hk
      cases h
      exact Or.inl ⟨mem_cons_self, hk.symm⟩
    · exact Or.inr h

theorem get?_filter (p : κ → Bool) (m : SortedMap κ α) (k : κ) :
    (m.filter p).get? k = if p k then m.get? k else none := by
  apply Option.ext
  intro w
  rw [get?_eq_some]
  show (k, w) ∈ m.entries.filter _ ↔ _
  rw [mem_filter]
  by_cases hp : p k = true
  · simp [hp, get?_eq_some]
  · simp [hp]

theorem get?_foldl_put_none (f : κ → Option κ) (k : κ) : ∀ (l : List (κ × α)) (m : SortedMap κ α),
    (∀ e ∈ l, f e.1 ≠ some k) →
      (l.foldl (fun m e => match f e.1 with | some k => m.set k e.2 | none => m) m).get? k = m.get? k
  | [], _, _ => rfl
  | x :: l, m, h => by
    rw [foldl_cons, get?_foldl_put_none f k l _ (fun e he => h e (mem_cons_of_mem _ he))]
    cases hx : f x.1 with
    | none => rfl
    | some k' =>
      have hk : k ≠ k' := fun hk => h x mem_cons_self (by rw [hx, hk])
      rw [get?_set, if_neg hk]

theorem get?_foldl_put_some (f : κ → Option κ) (k : κ) (v : α) : ∀ (l : List (κ × α)) (m : SortedMap κ α),
    (∃ e ∈ l, f e.1 = some k) → (∀ e ∈ l, f e.1 = some k → e.2 = v) →
      (l.foldl (fun m e => match f e.1 with | some k => m.set k e.2 | none => m) m).get? k = some v
  | [], _, h, _ => by obtain ⟨e, he, -⟩ := h; cases he
  | x :: l, m, h, hv => by
    rw [foldl_cons]
    by_cases hl : ∃ e ∈ l, f e.1 = some k
    · exact get?_foldl_put_some f k v l _ hl (fun e he => hv e (mem_cons_of_mem _ he))
    rw [get?_foldl_put_none f k l _ (fun e he hf => hl ⟨e, he, hf⟩)]
    obtain ⟨e, he, hf⟩ := h
    rcases mem_cons.1 he with rfl | he
    · rw [hf]
      dsimp only
      rw [get?_set, if_pos rfl, hv e mem_cons_self hf]
    · exact absurd ⟨e, he, hf⟩ hl

theorem get?_put_cases {f : κ → Option κ} {src m : SortedMap κ α} {k : κ} {v : α} (h : (put f src m).get? k = some v) :
    (∃ k₀, src.get? k₀ = some v ∧ f k₀ = some k) ∨ m.get? k = some v := by
  have key : ∀ (l : List (κ × α)) (m : SortedMap κ α),
      (l.foldl (fun m e => match f e.1 with | some k => m.set k e.2 | none => m) m).get? k = some v →
      (∃ e ∈ l, e.2 = v ∧ f e.1 = some k) ∨ m.get? k = some v := by
    intro l
    induction l with
    | nil => exact fun m h => Or.inr h
    | cons x l ih =>
      intro m h
      rcases ih _ h with ⟨e, he, hv⟩ | h
      · exact Or.inl ⟨e, mem_cons_of_mem x he, hv⟩
      dsimp only at h
      cases hx : f x.1 with
      | none =>
        rw [hx] at h
        exact Or.inr h
      | some k' =>
        rw [hx] at h
        dsimp only at h
        rw [get?_set] at h
        split at h
        · rename_i hk
          exact Or.inl ⟨x, mem_cons_self, Option.some.inj h, by rw [hx, hk]⟩
        · exact Or.inr h
  rcases key src.entries m h with ⟨e, he, hv, hf⟩ | h
  · exact Or.inl ⟨e.1, get?_eq_some.2 (by rw [← hv]; exact he), hf⟩
  · exact Or.inr h

theorem get?_put_of_ne {f : κ → Option κ} {src m : SortedMap κ α} {k : κ}
    (h : ∀ k₀ v, src.get? k₀ = some v → f k₀ ≠ some k) : (put f src m).get? k = m.get? k :=
  get?_foldl_put_none f k _ m (fun e he => h e.1 e.2 (get?_eq_some.2 he))

/-- **The one key `f` sends to `k` decides the lookup at `k`.** -/
theorem get?_put {f : κ → Option κ} {src m : SortedMap κ α} {k : κ} (k₀ : κ) (hk : f k₀ = some k)
    (hinj : ∀ k₁, f k₁ = some k → k₁ = k₀) : (put f src m).get? k = (src.get? k₀).or (m.get? k) := by
  cases hs : src.get? k₀ with
  | none =>
    rw [Option.none_or]
    refine get?_put_of_ne fun k₁ v hv hf => ?_
    rw [hinj k₁ hf, hs] at hv
    cases hv
  | some v =>
    rw [Option.some_or]
    refine get?_foldl_put_some f k v _ m ⟨(k₀, v), get?_eq_some.1 hs, hk⟩ (fun e he hf => ?_)
    have := get?_eq_some.2 he
    rw [hinj e.1 hf, hs] at this
    exact (Option.some.inj this).symm

theorem get?_put_empty {f : κ → Option κ} {src : SortedMap κ α} {k : κ} (k₀ : κ) (hk : f k₀ = some k)
    (hinj : ∀ k₁, f k₁ = some k → k₁ = k₀) : (put f src empty).get? k = src.get? k₀ := by
  rw [get?_put k₀ hk hinj, get?_empty, Option.or_none]

theorem get?_put_empty_none {f : κ → Option κ} {src : SortedMap κ α} {k : κ} (h : ∀ k₀, f k₀ ≠ some k) :
    (put f src empty).get? k = none := by
  rw [get?_put_of_ne (fun k₀ _ _ => h k₀), get?_empty]

theorem put_eq_self {f : κ → Option κ} {src m : SortedMap κ α} (h : ∀ k v, src.get? k = some v → f k = none) :
    put f src m = m := by
  refine ext_get? fun k => get?_put_of_ne fun k₀ v hv hf => ?_
  rw [h k₀ v hv] at hf
  cases hf

/-! ## Numbers by first use -/

def firstUses (seen : List κ) : List κ → List κ
  | []      => seen
  | k :: ks => firstUses (if k ∈ seen then seen else seen ++ [k]) ks

def number (m : SortedMap κ Int) (k : κ) : SortedMap κ Int :=
  if (m.get? k).isNone then m.set k m.entries.length else m

structure Numbers (m : SortedMap κ Int) (seen : List κ) : Prop where
  nodup : seen.Nodup
  get? : ∀ k n, m.get? k = some n ↔ ∃ i : Nat, n = i ∧ seen[i]? = some k

theorem numbers_empty : Numbers (empty : SortedMap κ Int) [] :=
  ⟨nodup_nil, fun _ _ => ⟨fun h => (nomatch h), fun ⟨_, _, h⟩ => (nomatch h)⟩⟩

section
variable {m : SortedMap κ Int} {seen : List κ} (h : Numbers m seen)
include h

theorem Numbers.isSome_get? (k : κ) : (m.get? k).isSome ↔ k ∈ seen := by
  rw [Option.isSome_iff_exists, mem_iff_getElem?]
  constructor
  · rintro ⟨n, hn⟩
    obtain ⟨i, -, hi⟩ := (h.get? k n).1 hn
    exact ⟨i, hi⟩
  · rintro ⟨i, hi⟩
    exact ⟨i, (h.get? k i).2 ⟨i, rfl, hi⟩⟩

theorem Numbers.keys_perm : (m.entries.map Prod.fst).Perm seen := by
  have hnodup : (m.entries.map Prod.fst).Nodup :=
    pairwise_map.2 (m.sorted.imp (fun hlt => ne_of_lt hlt))
  refine (perm_ext_iff_of_nodup hnodup h.nodup).2 (fun k => ?_)
  rw [← h.isSome_get?, mem_map, Option.isSome_iff_exists]
  constructor
  · rintro ⟨⟨k', v⟩, he, rfl⟩
    exact ⟨v, get?_eq_some.2 he⟩
  · rintro ⟨v, hv⟩
    exact ⟨(k, v), get?_eq_some.1 hv, rfl⟩

theorem Numbers.length_entries : m.entries.length = seen.length := by
  rw [← h.keys_perm.length_eq, length_map]

/-- **The keys of the map are the keys seen, sorted.** -/
theorem Numbers.keys_eq : m.entries.map Prod.fst = seen.mergeSort (fun a b => decide (a ≤ b)) := by
  have hsorted : (m.entries.map Prod.fst).Pairwise (· ≤ ·) := pairwise_map.2 (m.sorted.imp le_of_lt)
  have hmerge : (seen.mergeSort (fun a b => decide (a ≤ b))).Pairwise (· ≤ ·) := by
    refine (pairwise_mergeSort (fun a b c hab hbc => ?_) (fun a b => ?_) seen).imp of_decide_eq_true
    · exact decide_eq_true (le_trans (of_decide_eq_true hab) (of_decide_eq_true hbc))
    · rw [Bool.or_eq_true, decide_eq_true_eq, decide_eq_true_eq]
      exact le_total a b
  exact (h.keys_perm.trans (mergeSort_perm _ _).symm).eq_of_pairwise (fun _ _ _ _ => le_antisymm) hsorted hmerge

/-- **A key used** is numbered by the keys seen before its first use. -/
theorem Numbers.number (k : κ) : Numbers (m.number k) (if k ∈ seen then seen else seen ++ [k]) := by
  unfold SortedMap.number
  by_cases hk : k ∈ seen
  · have hsome := (h.isSome_get? k).2 hk
    rw [if_pos hk, if_neg (by rw [Option.isNone_iff_eq_none, ← Option.not_isSome_iff_eq_none]; exact not_not.2 hsome)]
    exact h
  have hnone : (m.get? k).isNone := by
    rw [Option.isNone_iff_eq_none, ← Option.not_isSome_iff_eq_none]
    exact fun hs => hk ((h.isSome_get? k).1 hs)
  rw [if_neg hk, if_pos hnone, h.length_entries]
  refine ⟨?_, fun k' n => ?_⟩
  · exact nodup_append.2 ⟨h.nodup, nodup_singleton k, fun a ha b hb hab =>
      hk ((hab.trans (mem_singleton.1 hb)) ▸ ha)⟩
  · rw [get?_set]
    by_cases hkk : k' = k
    · rw [if_pos hkk, Option.some.injEq, hkk]
      constructor
      · rintro rfl
        exact ⟨seen.length, rfl, getElem?_concat_length⟩
      · rintro ⟨i, rfl, hi⟩
        by_contra hne
        have hlt : i < seen.length := by
          have := (List.getElem?_eq_some_iff.1 hi).1
          rw [length_append, length_singleton] at this
          omega
        rw [getElem?_append_left hlt] at hi
        exact hk (mem_of_getElem? hi)
    · rw [if_neg hkk, h.get?]
      refine exists_congr fun i => and_congr_right fun _ => ?_
      rw [getElem?_append]
      split
      · exact Iff.rfl
      rename_i hge
      rw [getElem?_eq_none (Nat.le_of_not_lt hge)]
      constructor
      · exact fun hi => nomatch hi
      · intro hi
        exact absurd (mem_singleton.1 (mem_of_getElem? hi)) hkk

end

end SortedMap
