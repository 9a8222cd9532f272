import Mathlib.Data.List.Nodup
import Mathlib.Data.List.Perm.Basic
/-!
# Refs — items that refer to one another by key

Every item has a key and the keys it refers to; some items are targets.  `Closed` says that the keys are distinct and
that every reference finds a target.  It is kept by a change that keeps keys, references and targets, by a reordering, by
an item with a new key, and by a removal that takes along what refers to it.
-/
namespace Refs

open List

variable {α κ : Type*} (key : α → κ) (refs : α → List κ) (target : α → Prop)

/-- `k` is the key of a target. -/
def Finds (items : List α) (k : κ) : Prop := ∃ t ∈ items, key t = k ∧ target t

structure Closed (items : List α) : Prop where
  nodup : (items.map key).Nodup
  finds : ∀ a ∈ items, ∀ k ∈ refs a, Finds key target items k

variable {key refs target} {items items' : List α}

theorem closed_nil : Closed key refs target [] := ⟨nodup_nil, fun _ h => nomatch h⟩

theorem Finds.mono (h : ∀ a ∈ items, a ∈ items') {k : κ} (hk : Finds key target items k) : Finds key target items' k := by
  obtain ⟨t, ht, hkt⟩ := hk
  exact ⟨t, h t ht, hkt⟩

theorem Closed.unique (h : Closed key refs target items) {a b : α} (ha : a ∈ items) (hb : b ∈ items)
    (hab : key a = key b) : a = b := inj_on_of_nodup_map h.nodup ha hb hab

theorem Closed.perm (h : Closed key refs target items) (hp : items.Perm items') : Closed key refs target items' :=
  ⟨(hp.map key).nodup_iff.1 h.nodup, fun a ha k hk => (h.finds a (hp.mem_iff.2 ha) k hk).mono (fun _ => hp.mem_iff.1)⟩

/-- **Closure is a matter of keys, references and targets**: of whatever determines them. -/
theorem Closed.congr (h : Closed key refs target items) {β : Type*} {view : α → β}
    (hview : ∀ a b, view a = view b → key a = key b ∧ refs a = refs b ∧ (target a → target b))
    (he : items.map view = items'.map view) : Closed key refs target items' := by
  have hmem : ∀ {l l' : List α}, l.map view = l'.map view → ∀ b ∈ l', ∃ a ∈ l, view a = view b := fun hl b hb =>
    mem_map.1 (hl ▸ mem_map_of_mem hb)
  have hkeys : ∀ {l l' : List α}, l.map view = l'.map view → l.map key = l'.map key := by
    intro l
    induction l with
    | nil =>
      rintro (_ | _) hl
      · rfl
      · cases hl
    | cons a l ih =>
      rintro (_ | ⟨b, l'⟩) hl
      · cases hl
      · rw [map_cons, map_cons, List.cons.injEq] at hl
        rw [map_cons, map_cons, (hview a b hl.1).1, ih hl.2]
  constructor
  · rw [← hkeys he]
    exact h.nodup
  · rintro b hb k hk
    obtain ⟨a, ha, hab⟩ := hmem he b hb
    rw [← (hview a b hab).2.1] at hk
    obtain ⟨t, ht, rfl, htt⟩ := h.finds a ha k hk
    obtain ⟨t', ht', htv⟩ := hmem he.symm t ht
    exact ⟨t', ht', (hview t t' htv.symm).1.symm, (hview t t' htv.symm).2.2 htt⟩

theorem Closed.append (h : Closed key refs target items) {a : α} (hnew : ∀ b ∈ items, key b ≠ key a)
    (hrefs : ∀ k ∈ refs a, Finds key target items k) : Closed key refs target (items ++ [a]) := by
  have hsub : ∀ b ∈ items, b ∈ items ++ [a] := fun b hb => mem_append_left _ hb
  constructor
  · rw [map_append, nodup_append]
    refine ⟨h.nodup, nodup_singleton _, ?_⟩
    rintro x hx y hy rfl
    obtain ⟨b, hb, hbx⟩ := mem_map.1 hx
    exact hnew b hb (hbx.trans (mem_singleton.1 hy))
  · rintro b hb k hk
    rcases mem_append.1 hb with hb | hb
    · exact (h.finds b hb k hk).mono hsub
    · rw [mem_singleton.1 hb] at hk
      exact (hrefs k hk).mono hsub

/-- **A removal that takes along what refers to it.** -/
theorem Closed.filter (h : Closed key refs target items) {p : α → Bool}
    (hp : ∀ a ∈ items, p a = true → ∀ t ∈ items, key t ∈ refs a → target t → p t = true) :
    Closed key refs target (items.filter p) := by
  constructor
  · exact List.Nodup.sublist (filter_sublist.map key) h.nodup
  · rintro a ha k hk
    obtain ⟨ha, hpa⟩ := mem_filter.1 ha
    obtain ⟨t, ht, rfl, htt⟩ := h.finds a ha k hk
    exact ⟨t, mem_filter.2 ⟨ht, hp a ha hpa t ht hk htt⟩, rfl, htt⟩

end Refs
