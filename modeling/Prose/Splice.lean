import Mathlib.Data.List.Basic
/-!
# Splice — spans of a list cut out, put in and mapped

`insertAt i xs l` puts `xs` in front of position `i`, `cut i j l` takes the span `[i, j)` out, `mapSpan i j g l`
applies `g` inside the span.  Each reads on an append as the same operation on the part it touches.
-/
namespace Splice

open List

variable {α β γ : Type*}

def insertAt (i : Nat) (xs l : List α) : List α := l.take i ++ xs ++ l.drop i

def cut (i j : Nat) (l : List α) : List α := l.take i ++ l.drop j

def mapSpan (i j : Nat) (g : α → α) (l : List α) : List α :=
  l.mapIdx (fun k x => if i ≤ k ∧ k < j then g x else x)

theorem length_insertAt (i : Nat) (xs l : List α) : (insertAt i xs l).length = l.length + xs.length := by
  simp only [insertAt, length_append, length_take, length_drop]
  omega

theorem length_cut {i j : Nat} {l : List α} (hij : i ≤ j) (hj : j ≤ l.length) :
    (cut i j l).length = l.length - (j - i) := by
  simp only [cut, length_append, length_take, length_drop]
  omega

@[simp] theorem length_mapSpan (i j : Nat) (g : α → α) (l : List α) : (mapSpan i j g l).length = l.length := by
  simp [mapSpan]

@[simp] theorem insertAt_nil (i : Nat) (l : List α) : insertAt i [] l = l := by simp [insertAt]

@[simp] theorem cut_self (i : Nat) (l : List α) : cut i i l = l := by simp [cut]

theorem map_insertAt (f : α → β) (i : Nat) (xs l : List α) :
    (insertAt i xs l).map f = insertAt i (xs.map f) (l.map f) := by
  simp [insertAt, map_take, map_drop]

theorem map_cut (f : α → β) (i j : Nat) (l : List α) : (cut i j l).map f = cut i j (l.map f) := by
  simp [cut, map_take, map_drop]

theorem mapSpan_getElem? (i j : Nat) (g : α → α) (l : List α) (k : Nat) :
    (mapSpan i j g l)[k]? = (l[k]?).map (fun x => if i ≤ k ∧ k < j then g x else x) := by
  simp [mapSpan, getElem?_mapIdx]

theorem insertAt_getElem? {i : Nat} {l : List α} (hi : i ≤ l.length) (xs : List α) (k : Nat) :
    (insertAt i xs l)[k]? =
      if k < i then l[k]? else if k < i + xs.length then xs[k - i]? else l[k - xs.length]? := by
  have ht : (l.take i).length = i := by rw [length_take]; omega
  unfold insertAt
  rw [append_assoc, getElem?_append, ht]
  split
  · rename_i hk
    rw [getElem?_take_of_lt hk]
  rename_i hk
  rw [getElem?_append]
  by_cases hx : k - i < xs.length
  · rw [if_pos hx, if_pos (by omega)]
  · rw [if_neg hx, if_neg (by omega), getElem?_drop]
    congr 1
    omega

theorem cut_getElem? {i j : Nat} {l : List α} (hij : i ≤ j) (hi : i ≤ l.length) (k : Nat) :
    (cut i j l)[k]? = if k < i then l[k]? else l[k + (j - i)]? := by
  have ht : (l.take i).length = i := by rw [length_take]; omega
  unfold cut
  rw [getElem?_append, ht]
  split
  · rename_i hk
    rw [getElem?_take_of_lt hk]
  · rw [getElem?_drop]
    congr 1
    omega

theorem take_drop_eq_replicate {l : List α} {x : α} {i n : Nat} (h : ∀ k, i ≤ k → k < i + n → l[k]? = some x) :
    (l.drop i).take n = List.replicate n x := by
  apply ext_getElem?
  intro k
  rw [getElem?_replicate]
  split
  · rename_i hk
    rw [getElem?_take_of_lt hk, getElem?_drop, h (i + k) (by omega) (by omega)]
  · rename_i hk
    rw [getElem?_take, if_neg hk]

theorem cut_congr {i j : Nat} {l l' : List α} (h : ∀ k, k < i ∨ j ≤ k → l[k]? = l'[k]?) : cut i j l = cut i j l' := by
  have ht : l.take i = l'.take i := by
    apply ext_getElem?
    intro k
    rw [getElem?_take, getElem?_take]
    split
    · rename_i hk
      exact h k (Or.inl hk)
    · rfl
  have hd : l.drop j = l'.drop j := by
    apply ext_getElem?
    intro k
    rw [getElem?_drop, getElem?_drop]
    exact h (j + k) (Or.inr (Nat.le_add_right j k))
  rw [cut, cut, ht, hd]

theorem zipWith_insertAt {f : α → β → γ} {k : Nat} {l xs : List α} {m ys : List β} (h : l.length = m.length)
    (hx : xs.length = ys.length) :
    List.zipWith f (insertAt k xs l) (insertAt k ys m) = insertAt k (List.zipWith f xs ys) (List.zipWith f l m) := by
  unfold insertAt
  rw [zipWith_append (by simp [h, hx]), zipWith_append (by simp [h]), take_zipWith, drop_zipWith]

theorem zipWith_cut {f : α → β → γ} {i j : Nat} {l : List α} {m : List β} (h : l.length = m.length) :
    List.zipWith f (cut i j l) (cut i j m) = cut i j (List.zipWith f l m) := by
  unfold cut
  rw [zipWith_append (by simp [h]), take_zipWith, drop_zipWith]

theorem zipWith_replicate_right (f : α → β → γ) (l : List α) (b : β) :
    List.zipWith f l (List.replicate l.length b) = l.map (f · b) := by
  induction l with
  | nil => rfl
  | cons a l ih => rw [length_cons, replicate_succ, zipWith_cons_cons, ih, map_cons]

/-- **Cutting what was just put in gives the list back.** -/
theorem cut_insertAt {i : Nat} {l : List α} (h : i ≤ l.length) (xs : List α) :
    cut i (i + xs.length) (insertAt i xs l) = l := by
  have ht : (l.take i).length = i := by rw [length_take]; omega
  unfold cut insertAt
  rw [append_assoc, take_append_of_le_length (by omega), take_of_length_le (by omega),
    ← append_assoc, drop_append, drop_eq_nil_of_le (by simp [ht]), length_append, ht,
    Nat.sub_self, drop_zero, nil_append, take_append_drop]

theorem cut_insertAt_inside {i m : Nat} {l : List α} (him : i ≤ m) (hm : m ≤ l.length) (xs : List α) :
    cut i (m + xs.length) (insertAt m xs l) = cut i m l := by
  have ht : (l.take m).length = m := by rw [length_take]; omega
  have hl : (l.take m ++ xs).length = m + xs.length := by rw [length_append, ht]
  unfold cut insertAt
  rw [← hl, drop_left, append_assoc, take_append_of_le_length (by omega), take_take,
    Nat.min_eq_left him]

/-- **Putting back what was just cut gives the list back.** -/
theorem insertAt_cut {i j : Nat} {l : List α} (hij : i ≤ j) (hj : j ≤ l.length) :
    insertAt i ((l.drop i).take (j - i)) (cut i j l) = l := by
  apply ext_getElem?
  intro k
  have hlen : ((l.drop i).take (j - i)).length = j - i := by
    rw [length_take, length_drop]; omega
  rw [insertAt_getElem? (by rw [length_cut hij hj]; omega), hlen]
  by_cases h1 : k < i
  · rw [if_pos h1, cut_getElem? hij (by omega), if_pos h1]
  rw [if_neg h1]
  by_cases h2 : k < i + (j - i)
  · rw [if_pos h2, getElem?_take_of_lt (by omega), getElem?_drop]
    congr 1
    omega
  · rw [if_neg h2, cut_getElem? hij (by omega), if_neg (by omega)]
    congr 1
    omega

theorem insertAt_insertAt {i : Nat} {l : List α} (h : i ≤ l.length) (xs ys : List α) :
    insertAt (i + xs.length) ys (insertAt i xs l) = insertAt i (xs ++ ys) l := by
  have ht : (l.take i).length = i := by rw [length_take]; omega
  have hl : (l.take i ++ xs).length = i + xs.length := by rw [length_append, ht]
  show List.take _ (l.take i ++ xs ++ l.drop i) ++ ys ++ List.drop _ (l.take i ++ xs ++ l.drop i) = _
  rw [← hl, take_left, drop_left]
  simp only [insertAt, append_assoc]

theorem take_insertAt {i : Nat} {l : List α} (h : i ≤ l.length) (xs : List α) :
    (insertAt i xs l).take (i + xs.length) = l.take i ++ xs := by
  rw [insertAt, take_left' (by rw [length_append, length_take]; omega)]

theorem set_insertAt {i : Nat} {l : List α} (h : i ≤ l.length) (x y : α) (xs : List α) :
    (insertAt i (x :: xs) l).set i y = insertAt i (y :: xs) l := by
  have ht : (l.take i).length = i := by rw [length_take]; omega
  rw [insertAt, insertAt, append_assoc, append_assoc, set_append_right _ _ (Nat.le_of_eq ht), ht,
    Nat.sub_self]
  rfl

theorem insertAt_append_right (i : Nat) (xs a b : List α) :
    insertAt (a.length + i) xs (a ++ b) = a ++ insertAt i xs b := by
  simp only [insertAt, take_length_add_append, drop_length_add_append, append_assoc]

theorem insertAt_length {i : Nat} {a : List α} (h : a.length = i) (xs b : List α) :
    insertAt i xs (a ++ b) = a ++ (xs ++ b) := by
  rw [insertAt, take_left' h, drop_left' h, append_assoc]

theorem insertAt_end {i : Nat} {l : List α} (h : l.length = i) (xs : List α) : insertAt i xs l = l ++ xs := by
  simp [insertAt, ← h]

theorem insertAt_append_left {i : Nat} {a : List α} (h : i ≤ a.length) (xs b : List α) :
    insertAt i xs (a ++ b) = insertAt i xs a ++ b := by
  simp [insertAt, take_append_of_le_length h, drop_append_of_le_length h]

theorem cut_append_right (i j : Nat) (a b : List α) :
    cut (a.length + i) (a.length + j) (a ++ b) = a ++ cut i j b := by
  simp only [cut, take_length_add_append, drop_length_add_append, append_assoc]

theorem cut_append {i j : Nat} (h : i ≤ j) (a b : List α) :
    cut i j (a ++ b) = cut i j a ++ cut (i - a.length) (j - a.length) b := by
  simp only [cut, List.take_append, drop_append, append_assoc]
  by_cases hi : i ≤ a.length
  · simp [Nat.sub_eq_zero_of_le hi]
  · have hd : a.drop j = [] := drop_eq_nil_of_le (by omega)
    simp [hd]

theorem mapSpan_append (i j : Nat) (g : α → α) (a b : List α) :
    mapSpan i j g (a ++ b) = mapSpan i j g a ++ mapSpan (i - a.length) (j - a.length) g b := by
  apply ext_getElem?
  intro k
  by_cases hk : k < a.length
  · rw [mapSpan_getElem?, getElem?_append_left hk, getElem?_append_left (by simpa using hk), mapSpan_getElem?]
  have hk' : a.length ≤ k := by omega
  rw [mapSpan_getElem?, getElem?_append_right hk', getElem?_append_right (by simpa using hk'),
    length_mapSpan, mapSpan_getElem?]
  cases b[k - a.length]? with
  | none => rfl
  | some x =>
    by_cases hij : i ≤ k ∧ k < j
    · rw [Option.map_some, Option.map_some, if_pos hij, if_pos (by omega)]
    · rw [Option.map_some, Option.map_some, if_neg hij, if_neg (by omega)]

theorem mapSpan_outside {i j : Nat} (g : α → α) {l : List α} (h : ∀ k < l.length, ¬ (i ≤ k ∧ k < j)) :
    mapSpan i j g l = l := by
  apply ext_getElem?
  intro k
  rw [mapSpan_getElem?]
  cases hk : l[k]? with
  | none => rfl
  | some x =>
    obtain ⟨hlt, -⟩ := List.getElem?_eq_some_iff.1 hk
    rw [Option.map_some, if_neg (h k hlt)]

theorem mapSpan_middle {a b c : List α} {i j : Nat} (g : α → α) (hj : j ≤ b.length) :
    mapSpan (a.length + i) (a.length + j) g (a ++ b ++ c) = a ++ mapSpan i j g b ++ c := by
  rw [mapSpan_append, mapSpan_append, mapSpan_outside (l := a) g (fun k hk => by omega),
    mapSpan_outside (l := c) g (fun k hk => by rw [length_append]; omega), Nat.add_sub_cancel_left,
    Nat.add_sub_cancel_left]

theorem mapSpan_all {n : Nat} (g : α → α) {l : List α} (h : l.length ≤ n) : mapSpan 0 n g l = l.map g := by
  apply ext_getElem?
  intro k
  rw [mapSpan_getElem?, getElem?_map]
  cases hk : l[k]? with
  | none => rfl
  | some x =>
    obtain ⟨hlt, -⟩ := List.getElem?_eq_some_iff.1 hk
    rw [Option.map_some, Option.map_some, if_pos (by omega)]

theorem map_mapSpan_of_eq {f : α → β} {g : α → α} (h : ∀ x, f (g x) = f x) (i j : Nat) (l : List α) :
    (mapSpan i j g l).map f = l.map f := by
  apply ext_getElem?
  intro k
  rw [getElem?_map, mapSpan_getElem?, getElem?_map, Option.map_map]
  congr 1
  funext x
  rw [Function.comp_apply]
  split
  · exact h x
  · rfl

theorem mapSpan_whole (g : α → α) (a b c : List α) :
    mapSpan a.length (a.length + b.length) g (a ++ b ++ c) = a ++ b.map g ++ c := by
  have h := mapSpan_middle (a := a) (c := c) (i := 0) g (Nat.le_refl b.length)
  rwa [Nat.add_zero, mapSpan_all g (Nat.le_refl _)] at h

theorem mapSpan_cons (i j : Nat) (g : α → α) (x : α) (l : List α) :
    mapSpan (i + 1) (j + 1) g (x :: l) = x :: mapSpan i j g l := by
  have := mapSpan_append (i + 1) (j + 1) g [x] l
  have hx : mapSpan (i + 1) (j + 1) g [x] = [x] := mapSpan_outside g (fun k hk => by
    rw [length_singleton] at hk
    omega)
  rwa [hx, length_singleton, Nat.add_sub_cancel, Nat.add_sub_cancel] at this

theorem mapSpan_mapSpan {i m j : Nat} (him : i ≤ m) (hmj : m ≤ j) (g : α → α) (l : List α) :
    mapSpan m j g (mapSpan i m g l) = mapSpan i j g l := by
  apply ext_getElem?
  intro k
  rw [mapSpan_getElem?, mapSpan_getElem?, mapSpan_getElem?, Option.map_map]
  congr 1
  funext x
  rw [Function.comp_apply]
  by_cases h1 : k < m
  · rw [if_neg (by omega)]
    exact if_congr (by omega) rfl rfl
  · rw [if_neg (show ¬ (i ≤ k ∧ k < m) by omega)]
    exact if_congr (by omega) rfl rfl

theorem mapSpan_skip {i : Nat} (j : Nat) {g : α → α} {l : List α} (h : ∀ x, l[i]? = some x → g x = x) :
    mapSpan (i + 1) j g l = mapSpan i j g l := by
  apply ext_getElem?
  intro k
  rw [mapSpan_getElem?, mapSpan_getElem?]
  cases hk : l[k]? with
  | none => rfl
  | some x =>
    rw [Option.map_some, Option.map_some]
    by_cases hik : i = k
    · subst hik
      rw [if_neg (by omega)]
      split
      · rw [h x hk]
      · rfl
    · have hiff : (i + 1 ≤ k ∧ k < j) ↔ (i ≤ k ∧ k < j) := by omega
      simp only [hiff]

theorem insertAt_map_cut {i j : Nat} {l : List α} (hij : i ≤ j) (hj : j ≤ l.length) (g : α → α) :
    insertAt i (((l.drop i).take (j - i)).map g) (cut i j l) = mapSpan i j g l := by
  obtain ⟨A, B, C, rfl, rfl, hB⟩ : ∃ A B C, l = A ++ B ++ C ∧ A.length = i ∧ B.length = j - i :=
    ⟨l.take i, (l.drop i).take (j - i), (l.drop i).drop (j - i),
      by rw [append_assoc, take_append_drop, take_append_drop],
      by rw [length_take]; omega, by rw [length_take, length_drop]; omega⟩
  obtain rfl : j = A.length + B.length := by omega
  have hAB : (A ++ B).length = A.length + B.length := length_append
  rw [mapSpan_whole, Nat.add_sub_cancel_left, cut, ← hAB, drop_left, append_assoc, take_left, drop_left,
    take_left, insertAt_length rfl, append_assoc]

end Splice
