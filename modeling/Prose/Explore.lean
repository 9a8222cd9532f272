import Mathlib.Data.Set.Basic
import Mathlib.Logic.Relation
/-!
# Explore — what a search with a worklist reaches

Some points are marked and some are waiting.  While every step from a marked point leads to a point of either kind, the search
that has none waiting has marked all it can reach.
-/
namespace Explore

variable {α : Type*} (r : α → α → Prop) (source : α)

def Reached : Set α := {a | Relation.ReflTransGen r source a}

theorem source_mem : source ∈ Reached r source := Relation.ReflTransGen.refl

variable {r source}

theorem Reached.next {a b : α} (ha : a ∈ Reached r source) (h : r a b) : b ∈ Reached r source :=
  Relation.ReflTransGen.tail ha h

theorem Reached.subset {P : Set α} (h0 : source ∈ P) (h : ∀ a b, r a b → b ∈ P) : Reached r source ⊆ P := by
  intro a ha
  cases ha with
  | refl => exact h0
  | tail _ hab => exact h _ _ hab

variable (r source)

structure Exploring (marked waiting : Set α) : Prop where
  begun : source ∈ marked ∪ waiting
  sound : marked ∪ waiting ⊆ Reached r source
  closed : ∀ a ∈ marked, ∀ b, r a b → b ∈ marked ∪ waiting

variable {r source}

/-- A turn of the search: nothing is forgotten, and the steps from what is newly marked are seen to. -/
theorem Exploring.turn {marked waiting marked' waiting' : Set α} (h : Exploring r source marked waiting) (hm : marked ⊆ marked')
    (hw : waiting ⊆ marked' ∪ waiting') (hsound : marked' ∪ waiting' ⊆ Reached r source)
    (hclosed : ∀ a ∈ marked', a ∉ marked → ∀ b, r a b → b ∈ marked' ∪ waiting') : Exploring r source marked' waiting' := by
  have hkeep : marked ∪ waiting ⊆ marked' ∪ waiting' := Set.union_subset (hm.trans Set.subset_union_left) hw
  refine ⟨hkeep h.begun, hsound, fun a ha b hab => ?_⟩
  by_cases hold : a ∈ marked
  · exact hkeep (h.closed a hold b hab)
  · exact hclosed a ha hold b hab

/-- **The search that is over has marked what can be reached.** -/
theorem Exploring.done {marked : Set α} (h : Exploring r source marked ∅) : marked = Reached r source := by
  have hempty := Set.union_empty marked
  obtain ⟨h0, hsound, hclosed⟩ := h
  rw [hempty] at h0 hsound hclosed
  refine Set.Subset.antisymm hsound (fun a ha => ?_)
  induction ha with
  | refl => exact h0
  | tail _ hab ih => exact hclosed _ ih _ hab

end Explore
