import Mathlib.Data.List.Nodup
import Prose.Splice
/-!
# Ledger — a list under splices, with everything ever put in

`history` holds every element in the order it was put in, `labels` says where in the history the elements of the list
stand.  A label stands in the list once at most, so an element that was put in is there exactly once until a cut takes it.
-/
open Splice

structure Ledger (α : Type) where
  history : List α
  labels : List Nat
  nodup : labels.Nodup
  lt : ∀ x ∈ labels, x < history.length

namespace Ledger

open List

variable {α : Type}

def start (l : List α) : Ledger α :=
  ⟨l, List.range l.length, nodup_range, fun _ hx => mem_range.1 hx⟩

def read (l : Ledger α) : List (Option α) := l.labels.map (l.history[·]?)

theorem mem_insertAt {i : Nat} {xs ls : List α} {x : α} : x ∈ insertAt i xs ls ↔ x ∈ xs ∨ x ∈ ls := by
  rw [insertAt, mem_append, mem_append]
  constructor
  · rintro ((h | h) | h)
    · exact Or.inr (mem_of_mem_take h)
    · exact Or.inl h
    · exact Or.inr (mem_of_mem_drop h)
  · rintro (h | h)
    · exact Or.inl (Or.inr h)
    · rw [← take_append_drop i ls, mem_append] at h
      exact h.elim (fun h => Or.inl (Or.inl h)) Or.inr

theorem nodup_insertAt {i : Nat} {xs ls : List α} (hx : xs.Nodup) (hl : ls.Nodup) (hd : ∀ x ∈ xs, x ∉ ls) :
    (insertAt i xs ls).Nodup := by
  have hp : (insertAt i xs ls).Perm (xs ++ ls) := by
    have h : (ls.take i ++ xs).Perm (xs ++ ls.take i) := perm_append_comm
    have h := h.append_right (ls.drop i)
    rwa [append_assoc xs, take_append_drop] at h
  rw [hp.nodup_iff, nodup_append]
  exact ⟨hx, hl, fun x h1 y h2 he => hd x h1 (he ▸ h2)⟩

theorem cut_sublist {i j : Nat} (h : i ≤ j) (l : List α) : (cut i j l).Sublist l := by
  have := (drop_sublist_drop_left l h).append_left (l.take i)
  rwa [take_append_drop] at this

/-- `xs` put in at position `i`. -/
def put (i : Nat) (xs : List α) (l : Ledger α) : Ledger α where
  history := l.history ++ xs
  labels := insertAt i (List.range' l.history.length xs.length) l.labels
  nodup := nodup_insertAt nodup_range' l.nodup (fun x h1 h2 => by
    have := l.lt x h2
    have := left_le_of_mem_range' h1
    omega)
  lt x hx := by
    rw [length_append]
    rcases mem_insertAt.1 hx with h | h
    · have := mem_range'_1.1 h
      omega
    · have := l.lt x h
      omega

/-- The positions `[i, i + n)` cut out. -/
def drop (i n : Nat) (l : Ledger α) : Ledger α where
  history := l.history
  labels := cut i (i + n) l.labels
  nodup := l.nodup.sublist (cut_sublist (Nat.le_add_right i n) l.labels)
  lt x hx := l.lt x ((cut_sublist (Nat.le_add_right i n) l.labels).subset hx)

@[simp] theorem read_start (l : List α) : (start l).read = l.map some := by
  apply ext_getElem?
  intro k
  simp only [read, start, getElem?_map]
  by_cases hk : k < l.length
  · rw [getElem?_range hk, getElem?_eq_getElem hk]
    exact congrArg some (getElem?_eq_getElem hk)
  · rw [getElem?_eq_none (by rw [length_range]; omega), getElem?_eq_none (by omega)]
    rfl

/-- **What is put in is what is read.** -/
theorem read_put (i : Nat) (xs : List α) (l : Ledger α) : (l.put i xs).read = insertAt i (xs.map some) l.read := by
  have hold : l.labels.map ((l.history ++ xs)[·]?) = l.read :=
    map_congr_left (fun x hx => getElem?_append_left (l.lt x hx))
  have hnew : (List.range' l.history.length xs.length).map ((l.history ++ xs)[·]?) = xs.map some := by
    rw [List.range'_eq_map_range, map_map, ← read_start]
    refine map_congr_left (fun k _ => ?_)
    exact (getElem?_append_right (Nat.le_add_right _ _)).trans (by rw [Nat.add_sub_cancel_left]; rfl)
  rw [← hold, ← hnew]
  exact map_insertAt _ _ _ _

theorem read_drop (i n : Nat) (l : Ledger α) : (l.drop i n).read = cut i (i + n) l.read := map_cut _ _ _ _

theorem length_read (l : Ledger α) : l.read.length = l.labels.length := length_map _

theorem mem_drop {i n x : Nat} {l : Ledger α} (h : x ∈ l.labels) :
    x ∈ (l.drop i n).labels ∨ x ∈ (l.labels.drop i).take n := by
  rw [← take_append_drop i l.labels, ← take_append_drop n (l.labels.drop i), drop_drop] at h
  rcases mem_append.1 h with h | h
  · exact Or.inl (mem_append_left _ h)
  · rcases mem_append.1 h with h | h
    · exact Or.inr h
    · exact Or.inl (mem_append_right _ h)

end Ledger
