import Prose.HostfsModel
import Prose.Pointers
/-!
# HostfsTable — what the sections keep of the node table

`Sound` is the invariant of the table, its idle list and its counts, but for one node that may be needed by nobody without
being idle yet: `_Collect` is what ends that.  Every section keeps it, and what goes out of the table is needed by nobody.
-/
namespace Prose
namespace Hostfs

open List

structure Unneeded (n : Node) : Prop where
  published : n.published = false
  pending : n.pending = 0
  children : n.children = 0

instance (n : Node) : Decidable (Unneeded n) :=
  decidable_of_iff (n.published = false ∧ n.pending = 0 ∧ n.children = 0) ⟨fun h => ⟨h.1, h.2.1, h.2.2⟩, fun h => ⟨h.1, h.2, h.3⟩⟩

namespace Volume

def up (v : Volume) (id : Id) : Id := (v.node id).parent

structure Tree (v : Volume) : Prop where
  root : rootID ∈ v.nodes
  zero : (0 : Id) ∉ v.nodes
  children : ∀ id ∈ v.nodes, (v.node id).children = Pointers.count v.nodes v.up id
  parent : ∀ id ∈ v.nodes, v.up id ≠ 0 → v.up id ∈ v.nodes
  pending : ∀ id ∈ v.nodes, 0 ≤ (v.node id).pending

structure Idle (loose : Option Id) (v : Volume) : Prop where
  nodup : v.idleNodes.Nodup
  count : v.idleCount = v.idleNodes.length
  flag : ∀ id ∈ v.nodes, (v.node id).idle = true ↔ id ∈ v.idleNodes
  idle : ∀ id ∈ v.idleNodes, id ∈ v.nodes ∧ id ≠ rootID ∧ Unneeded (v.node id)
  unneeded : ∀ id ∈ v.nodes, id ≠ rootID → Unneeded (v.node id) → some id ≠ loose → id ∈ v.idleNodes

/-- **The table is in order.** -/
structure Sound (loose : Option Id) (v : Volume) : Prop extends Tree v, Idle loose v

variable {v : Volume} {loose : Option Id} {id : Id}

theorem Sound.loosen (h : Sound none v) : Sound loose v :=
  ⟨h.toTree, h.nodup, h.count, h.flag, h.idle, fun i hi hr hu _ => h.unneeded i hi hr hu (by simp)⟩

theorem Sound.tighten (h : Sound (some id) v) (hid : id ∈ v.nodes → id ≠ rootID → Unneeded (v.node id) → id ∈ v.idleNodes) :
    Sound none v := by
  refine ⟨h.toTree, h.nodup, h.count, h.flag, h.idle, fun i hi hr hu _ => ?_⟩
  by_cases hne : i = id
  · rw [hne] at hi hr hu ⊢
    exact hid hi hr hu
  · exact h.unneeded i hi hr hu fun he => hne (Option.some.inj he)

theorem Tree.congr (h : Tree v) {w : Volume} (hnodes : w.nodes = v.nodes) (hup : w.up = v.up)
    (hchildren : ∀ j, (w.node j).children = (v.node j).children) (hpending : ∀ j ∈ v.nodes, 0 ≤ (w.node j).pending) :
    Tree w := by
  refine ⟨hnodes ▸ h.root, hnodes ▸ h.zero, fun j hj => ?_, fun j hj => ?_, fun j hj => hpending j (hnodes ▸ hj)⟩
  · rw [hchildren, hnodes, hup]
    exact h.children j (hnodes ▸ hj)
  · rw [hnodes, hup]
    exact h.parent j (hnodes ▸ hj)

/-! ## One node changed -/

@[simp] theorem modify_nodes (v : Volume) (id : Id) (f : Node → Node) : (v.modify id f).nodes = v.nodes := rfl

@[simp] theorem modify_idleNodes (v : Volume) (id : Id) (f : Node → Node) : (v.modify id f).idleNodes = v.idleNodes := rfl

@[simp] theorem modify_idleCount (v : Volume) (id : Id) (f : Node → Node) : (v.modify id f).idleCount = v.idleCount := rfl

@[simp] theorem modify_node_self (v : Volume) (id : Id) (f : Node → Node) : (v.modify id f).node id = f (v.node id) :=
  Function.update_self ..

theorem modify_node_of_ne (v : Volume) {id j : Id} (f : Node → Node) (h : j ≠ id) : (v.modify id f).node j = v.node j :=
  Function.update_of_ne h ..

theorem modify_node (v : Volume) (id j : Id) (f : Node → Node) :
    (v.modify id f).node j = if j = id then f (v.node j) else v.node j := by
  split
  · rename_i hj
    rw [hj, modify_node_self]
  · rename_i hj
    exact modify_node_of_ne v f hj

theorem modify_field {α : Type} {g : Node → α} (v : Volume) (id : Id) {f : Node → Node}
    (hf : g (f (v.node id)) = g (v.node id)) (j : Id) : g ((v.modify id f).node j) = g (v.node j) := by
  by_cases hj : j = id
  · rw [hj, modify_node_self, hf]
  · rw [modify_node_of_ne v f hj]

theorem Sound.modify (h : Sound loose v) (hloose : ∀ i, loose = some i → i = id) (hid : id ∉ v.idleNodes) {f : Node → Node}
    (hf : (f (v.node id)).parent = (v.node id).parent ∧ (f (v.node id)).children = (v.node id).children ∧
      (f (v.node id)).idle = (v.node id).idle) (hp : 0 ≤ (f (v.node id)).pending) : Sound (some id) (v.modify id f) := by
  refine ⟨h.toTree.congr rfl (funext fun j => modify_field (g := Node.parent) v id hf.1 j) (modify_field v id hf.2.1) ?_,
    h.nodup, h.count, fun j hj => ?_, fun j hj => ?_, fun j hj hr hu hl => ?_⟩
  · intro j hj
    by_cases hne : j = id
    · rw [hne, modify_node_self]
      exact hp
    · rw [modify_node_of_ne v f hne]
      exact h.pending j hj
  · rw [modify_field (g := Node.idle) v id hf.2.2]
    exact h.flag j hj
  · have hne : j ≠ id := by
      rintro rfl
      exact hid hj
    rw [modify_node_of_ne v f hne]
    exact h.idle j hj
  · have hne : j ≠ id := fun he => hl (congrArg some he)
    rw [modify_node_of_ne v f hne] at hu
    exact h.unneeded j hj hr hu fun he => hne (hloose j he.symm)

theorem Unneeded.congr {n m : Node} (h : Unneeded n)
    (he : m.published = n.published ∧ m.pending = n.pending ∧ m.children = n.children) : Unneeded m :=
  ⟨he.1.trans h.1, he.2.1.trans h.2, he.2.2.trans h.3⟩

theorem Sound.modify_other (h : Sound loose v) {f : Node → Node}
    (hf : (f (v.node id)).parent = (v.node id).parent ∧ (f (v.node id)).children = (v.node id).children ∧
      (f (v.node id)).idle = (v.node id).idle ∧ (f (v.node id)).pending = (v.node id).pending ∧
      (f (v.node id)).published = (v.node id).published) : Sound loose (v.modify id f) := by
  obtain ⟨hparent, hchildren, hidle, hpending, hpublished⟩ := hf
  have hsame (j : Id) : ((v.modify id f).node j).published = (v.node j).published ∧
      ((v.modify id f).node j).pending = (v.node j).pending ∧ ((v.modify id f).node j).children = (v.node j).children :=
    ⟨modify_field v id hpublished j, modify_field v id hpending j, modify_field v id hchildren j⟩
  refine ⟨h.toTree.congr rfl (funext fun j => modify_field (g := Node.parent) v id hparent j)
    (modify_field v id hchildren) ?_, h.nodup, h.count, fun j hj => ?_, fun j hj => ?_, fun j hj hr hn hl => ?_⟩
  · intro j hj
    rw [(hsame j).2.1]
    exact h.pending j hj
  · rw [modify_field (g := Node.idle) v id hidle]
    exact h.flag j hj
  · exact ⟨(h.idle j hj).1, (h.idle j hj).2.1, Unneeded.congr (h.idle j hj).2.2 (hsame j)⟩
  · have hs := hsame j
    exact h.unneeded j hj hr (Unneeded.congr hn ⟨hs.1.symm, hs.2.1.symm, hs.2.2.symm⟩) hl

/-! ## In and out of the idle list -/

@[simp] theorem busy_nodes (v : Volume) (id : Id) : (v.busy id).nodes = v.nodes := by
  unfold busy
  split <;> rfl

theorem busy_node (v : Volume) (id j : Id) :
    (v.busy id).node j = { v.node j with idle := (v.node j).idle && decide (j ≠ id) } := by
  unfold busy
  by_cases hj : j = id
  · rw [hj]
    split
    · rw [modify_node_self]
      simp
    rename_i h
    have hb : (v.node id).idle = false := Bool.eq_false_of_not_eq_true h
    cases hn : v.node id
    rw [hn] at hb
    cases hb
    simp
  · rw [decide_eq_true hj, Bool.and_true]
    split
    · rw [modify_node_of_ne _ _ hj]
    · rfl

theorem busy_field {α : Type} {g : Node → α} (hf : ∀ (n : Node) (b : Bool), g { n with idle := b } = g n)
    (v : Volume) (id j : Id) : g ((v.busy id).node j) = g (v.node j) := by
  rw [busy_node, hf]

@[simp] theorem busy_up (v : Volume) (id : Id) : (v.busy id).up = v.up :=
  funext fun j => busy_field (g := Node.parent) (fun _ _ => rfl) v id j

theorem busy_idle (hf : (v.node id).idle = true ↔ id ∈ v.idleNodes) (hc : v.idleCount = v.idleNodes.length) :
    (v.busy id).idleNodes = v.idleNodes.erase id ∧ (v.busy id).idleCount = (v.idleNodes.erase id).length := by
  unfold busy
  split
  · rename_i hidle
    have hmem := hf.1 hidle
    refine ⟨rfl, ?_⟩
    rw [length_erase_of_mem hmem]
    have hpos := length_pos_of_mem hmem
    simp only [modify_idleCount]
    omega
  · rename_i hidle
    have hmem : id ∉ v.idleNodes := fun hm => hidle (hf.2 hm)
    rw [erase_of_not_mem hmem]
    exact ⟨rfl, hc⟩

theorem busy_unneeded (v : Volume) (id j : Id) : Unneeded ((v.busy id).node j) ↔ Unneeded (v.node j) := by
  rw [busy_node]
  exact ⟨fun h => ⟨h.1, h.2, h.3⟩, fun h => ⟨h.1, h.2, h.3⟩⟩

theorem Sound.busy (h : Sound loose v) (hloose : ∀ i, loose = some i → i = id) (hid : id ∈ v.nodes) :
    Sound (some id) (v.busy id) ∧ id ∉ (v.busy id).idleNodes := by
  obtain ⟨hlist, hcount⟩ := busy_idle (h.flag id hid) h.count
  have hmem (j : Id) : j ∈ (v.busy id).idleNodes ↔ j ≠ id ∧ j ∈ v.idleNodes := by rw [hlist, h.nodup.mem_erase_iff]
  refine ⟨⟨h.toTree.congr (busy_nodes v id) (busy_up v id) (busy_field (fun _ _ => rfl) v id) ?_, ?_, ?_, fun j hj => ?_,
    fun j hj => ?_, fun j hj hr hu hl => ?_⟩, fun hm => ((hmem id).1 hm).1 rfl⟩
  · intro j hj
    rw [busy_field (g := Node.pending) (fun _ _ => rfl)]
    exact h.pending j hj
  · rw [hlist]
    exact h.nodup.erase id
  · rw [hcount, hlist]
  · rw [busy_nodes] at hj
    rw [hmem, busy_node, ← h.flag j hj]
    simp [and_comm]
  · rw [hmem] at hj
    rw [busy_nodes, busy_unneeded]
    exact h.idle j hj.2
  · rw [busy_nodes] at hj
    rw [busy_unneeded] at hu
    rw [hmem]
    have hne : j ≠ id := fun he => hl (congrArg some he)
    exact ⟨hne, h.unneeded j hj hr hu fun he => hne (hloose j he.symm)⟩

theorem addIdle_field {α : Type} {g : Node → α} (hf : ∀ n : Node, g { n with idle := true } = g n) (v : Volume)
    (id j : Id) : g ((v.addIdle id).node j) = g (v.node j) := by
  unfold addIdle
  exact modify_field (g := g) _ id (hf _) j

theorem Sound.addIdle (h : Sound (some id) v) (hid : id ∈ v.nodes) (hr : id ≠ rootID) (hu : Unneeded (v.node id))
    (hidle : (v.node id).idle = false) : Sound none (v.addIdle id) := by
  have hnot : id ∉ v.idleNodes := fun hm => by
    rw [(h.flag id hid).2 hm] at hidle
    exact nomatch hidle
  have hlist : (v.addIdle id).idleNodes = v.idleNodes ++ [id] := rfl
  have hsame (j : Id) : ((v.addIdle id).node j).published = (v.node j).published ∧
      ((v.addIdle id).node j).pending = (v.node j).pending ∧ ((v.addIdle id).node j).children = (v.node j).children :=
    ⟨addIdle_field (fun _ => rfl) v id j, addIdle_field (fun _ => rfl) v id j, addIdle_field (fun _ => rfl) v id j⟩
  refine ⟨h.toTree.congr rfl (funext fun j => addIdle_field (g := Node.parent) (fun _ => rfl) v id j)
    (fun j => (hsame j).2.2) ?_, ?_, ?_, fun j hj => ?_, fun j hj => ?_, fun j hj hjr hn _ => ?_⟩
  · intro j hj
    rw [(hsame j).2.1]
    exact h.pending j hj
  · rw [hlist]
    exact nodup_append.2 ⟨h.nodup, nodup_singleton id, fun a ha b hb he =>
      hnot (by rw [← mem_singleton.1 hb, ← he]; exact ha)⟩
  · rw [hlist, length_append]
    change v.idleCount + 1 = _
    rw [h.count]
    rfl
  · rw [hlist, mem_append, mem_singleton]
    unfold Volume.addIdle
    by_cases hj' : j = id
    · rw [hj', modify_node_self]
      simp
    · rw [modify_node_of_ne _ _ hj']
      exact (h.flag j hj).trans ⟨Or.inl, fun ho => ho.resolve_right hj'⟩
  · rcases mem_append.1 hj with hj | hj
    · exact ⟨(h.idle j hj).1, (h.idle j hj).2.1, Unneeded.congr (h.idle j hj).2.2 (hsame j)⟩
    · rw [mem_singleton.1 hj]
      exact ⟨hid, hr, Unneeded.congr hu (hsame id)⟩
  · rw [hlist, mem_append, mem_singleton]
    by_cases hj' : j = id
    · exact Or.inr hj'
    · have hs := hsame j
      exact Or.inl (h.unneeded j hj hjr (Unneeded.congr hn ⟨hs.1.symm, hs.2.1.symm, hs.2.2.symm⟩) fun he =>
        hj' (Option.some.inj he))

/-! ## Trimming -/

@[simp] theorem orphan_nodes (v : Volume) (parent : Id) : (v.orphan parent).nodes = v.nodes := by
  unfold orphan
  split
  · dsimp only
    split <;> rfl
  · rfl

theorem Sound.shed (h : Sound none v) {rest : List Id} (hlist : v.idleNodes = id :: rest) {w : Volume}
    (hnodes : w.nodes = v.nodes.erase id) (hidle : w.idleNodes = rest) (hcount : w.idleCount = v.idleCount - 1)
    (hnode : ∀ j ∈ w.nodes, w.node j = { v.node j with children := (v.node j).children - if v.up id = j then 1 else 0 }) :
    Sound (some (v.up id)) w := by
  obtain ⟨hid, hroot, hneed⟩ := h.idle id (by rw [hlist]; exact mem_cons_self)
  have hup (j : Id) (hj : j ∈ w.nodes) : w.up j = v.up j := by
    unfold up
    rw [hnode j hj]
  have hmem (j : Id) : j ∈ w.nodes ↔ j ≠ id ∧ j ∈ v.nodes := by rw [hnodes, Finset.mem_erase]
  have hnochild : ∀ j ∈ v.nodes, v.up j ≠ id := by
    refine Pointers.count_eq_zero.1 ?_
    have hc := h.children id hid
    have h0 := hneed.children
    omega
  have hnd := h.nodup
  rw [hlist, nodup_cons] at hnd
  have hidleNe (j : Id) (hj : j ∈ rest) : j ≠ v.up id := by
    rintro rfl
    have hin := h.idle (v.up id) (by rw [hlist]; exact mem_cons_of_mem _ hj)
    have hc := h.children _ hin.1
    have h0 := hin.2.2.children
    have hzero : Pointers.count v.nodes v.up (v.up id) = 0 := by omega
    exact Pointers.count_eq_zero.1 hzero id hid rfl
  refine ⟨⟨(hmem _).2 ⟨hroot.symm, h.root⟩, fun h0 => h.zero ((hmem _).1 h0).2, fun j hj => ?_, fun j hj => ?_, fun j hj => ?_⟩,
    ?_, ?_, fun j hj => ?_, fun j hj => ?_, fun j hj hr hu hl => ?_⟩
  · have hc := h.children j ((hmem j).1 hj).2
    have he := Pointers.count_erase (u := v.up) (d := j) hid
    have hw : Pointers.count w.nodes w.up j = Pointers.count (v.nodes.erase id) v.up j := by
      rw [Pointers.count_congr hup, hnodes]
    rw [hnode j hj, hw]
    change (v.node j).children - _ = _
    split at he <;> rename_i hif
    · rw [if_pos hif]
      omega
    · rw [if_neg hif]
      omega
  · rw [hup j hj]
    exact fun h0 => (hmem _).2 ⟨hnochild j ((hmem j).1 hj).2, h.parent j ((hmem j).1 hj).2 h0⟩
  · rw [hnode j hj]
    exact h.pending j ((hmem j).1 hj).2
  · rw [hidle]
    exact hnd.2
  · have hc := h.count
    rw [hlist, length_cons] at hc
    rw [hcount, hidle]
    omega
  · rw [hnode j hj, hidle]
    refine (h.flag j ((hmem j).1 hj).2).trans ?_
    rw [hlist, mem_cons]
    exact or_iff_right ((hmem j).1 hj).1
  · rw [hidle] at hj
    have hin := h.idle j (by rw [hlist]; exact mem_cons_of_mem _ hj)
    have hjw : j ∈ w.nodes := (hmem j).2 ⟨fun he => hnd.1 (he ▸ hj), hin.1⟩
    refine ⟨hjw, hin.2.1, ?_⟩
    rw [hnode j hjw, if_neg (hidleNe j hj).symm]
    exact ⟨hin.2.2.1, hin.2.2.2, (Int.sub_zero _).trans hin.2.2.3⟩
  · have hne : v.up id ≠ j := fun he => hl (congrArg some he.symm)
    rw [hnode j hj, if_neg hne] at hu
    have hin := h.unneeded j ((hmem j).1 hj).2 hr ⟨hu.1, hu.2, (Int.sub_zero _).symm.trans hu.3⟩ (by simp)
    rw [hlist, mem_cons] at hin
    rw [hidle]
    exact hin.resolve_left ((hmem j).1 hj).1

/-- **A round of trimming keeps the table in order**, and what it takes out is needed by nobody. -/
theorem Sound.round (h : Sound none v) {rest : List Id} (hlist : v.idleNodes = id :: rest) :
    Sound none ((v.removeHead id rest).orphan ((v.removeHead id rest).node id).parent) ∧
      Unneeded ((v.removeHead id rest).node id) := by
  obtain ⟨hid, hroot, hneed⟩ := h.idle id (by rw [hlist]; exact mem_cons_self)
  have hself : (v.removeHead id rest).node id = { v.node id with idle := false } := Function.update_self ..
  have hother (j : Id) (hj : j ∈ (v.removeHead id rest).nodes) : (v.removeHead id rest).node j = v.node j :=
    Function.update_of_ne (Finset.ne_of_mem_erase hj) ..
  refine ⟨?_, by rw [hself]; exact ⟨hneed.1, hneed.2, hneed.3⟩⟩
  have hpar : ((v.removeHead id rest).node id).parent = v.up id := by rw [hself]; rfl
  rw [hpar]
  unfold orphan
  split
  · rename_i hp
    dsimp only
    have hsound : Sound (some (v.up id)) ((v.removeHead id rest).modify (v.up id)
        fun p => { p with children := p.children - 1 }) := by
      refine h.shed hlist rfl rfl rfl fun j hj => ?_
      by_cases hj' : j = v.up id
      · rw [hj', modify_node_self, if_pos rfl, hother _ hp.2]
      · rw [modify_node_of_ne _ _ hj', if_neg (fun he => hj' he.symm), hother j hj, Int.sub_zero]
    have hpw : v.up id ∈ ((v.removeHead id rest).modify (v.up id) fun p => { p with children := p.children - 1 }).nodes := hp.2
    generalize (v.removeHead id rest).modify (v.up id) (fun p => { p with children := p.children - 1 }) = w at hsound hpw ⊢
    split
    · rename_i hc
      exact hsound.addIdle hpw hc.2.1 ⟨hc.2.2.1, hc.2.2.2.1, hc.1⟩ hc.2.2.2.2
    rename_i hc
    refine hsound.tighten fun _ hr hu => ?_
    rw [← hsound.flag _ hpw]
    refine Bool.eq_true_of_not_eq_false fun hf => hc ⟨hu.3, hr, hu.1, hu.2, hf⟩
  · rename_i hp
    have hnone : ∀ j ∈ (v.removeHead id rest).nodes, v.up id ≠ j := by
      rintro j hj rfl
      exact hp ⟨fun h0 => h.zero (h0 ▸ Finset.mem_of_mem_erase hj), hj⟩
    have hsound : Sound (some (v.up id)) (v.removeHead id rest) := by
      refine h.shed hlist rfl rfl rfl fun j hj => ?_
      rw [if_neg (hnone j hj), hother j hj, Int.sub_zero]
    exact hsound.tighten fun hin _ _ => absurd rfl (hnone _ hin)

/-- A round, if there are more idle nodes than are to be kept; the list is not empty then. -/
theorem Sound.trimStep (h : Sound none v) {keep : Int} (hkeep : 0 ≤ keep) (l : Reclaim) :
    (∃ id rest, v.idleNodes = id :: rest ∧ Volume.trimStep keep (v, l) = some (.inl
      ((v.removeHead id rest).orphan ((v.removeHead id rest).node id).parent, (id, (v.removeHead id rest).node id) :: l))) ∨
    (v.idleCount ≤ keep ∧ Volume.trimStep keep (v, l) = some (.inr (v, l))) := by
  unfold Volume.trimStep
  dsimp only
  split
  · rename_i hgt
    split
    · rename_i hnil
      have hc := h.count
      rw [hnil, length_nil] at hc
      omega
    · rename_i id rest hlist
      exact Or.inl ⟨id, rest, hlist, rfl⟩
  · rename_i hle
    exact Or.inr ⟨Int.not_lt.1 hle, rfl⟩

/-- **`_TrimIdle` comes to an end**, with no more idle nodes than are to be kept; and what every round keeps, it keeps. -/
theorem Sound.trimIdle (h : Sound none v) {keep : Int} (hkeep : 0 ≤ keep) {P : Volume → Reclaim → Prop} (h0 : P v [])
    (hround : ∀ u l id rest, Sound none u → u.idleNodes = id :: rest → P u l →
      P ((u.removeHead id rest).orphan ((u.removeHead id rest).node id).parent) ((id, (u.removeHead id rest).node id) :: l)) :
    ∃ w l, v.trimIdle keep = some (w, l) ∧ Sound none w ∧ w.idleCount ≤ keep ∧ P w l := by
  have hstep : ∀ s t : Volume × Reclaim, (Sound none s.1 ∧ P s.1 s.2) → Volume.trimStep keep s = some (.inl t) →
      (Sound none t.1 ∧ P t.1 t.2) ∧ t.1.nodes.card < s.1.nodes.card := by
    rintro ⟨s, l⟩ t ⟨hs, hp⟩ ht
    rcases hs.trimStep hkeep l with ⟨id, rest, hlist, he⟩ | ⟨-, he⟩
    · rw [he] at ht
      cases ht
      refine ⟨⟨(hs.round hlist).1, hround s l id rest hs hlist hp⟩, ?_⟩
      dsimp only
      rw [orphan_nodes]
      exact Finset.card_erase_lt_of_mem (hs.idle id (by rw [hlist]; exact mem_cons_self)).1
    · rw [he] at ht
      exact absurd (Option.some.inj ht) (by simp)
  have hinv : ∀ s t : Volume × Reclaim, (Sound none s.1 ∧ P s.1 s.2) → Volume.trimStep keep s = some (.inl t) →
      Sound none t.1 ∧ P t.1 t.2 := fun s t hs ht => (hstep s t hs ht).1
  have hready : ∀ s : Volume × Reclaim, (Sound none s.1 ∧ P s.1 s.2) → (Volume.trimStep keep s).isSome := by
    rintro ⟨s, l⟩ ⟨hs, -⟩
    rcases hs.trimStep hkeep l with ⟨id, rest, -, he⟩ | ⟨-, he⟩
    · exact Option.isSome_iff_exists.2 ⟨_, he⟩
    · exact Option.isSome_iff_exists.2 ⟨_, he⟩
  have hstart : Sound none (v, ([] : Reclaim)).1 ∧ P (v, ([] : Reclaim)).1 (v, ([] : Reclaim)).2 := ⟨h, h0⟩
  have hsize : ∀ s t : Volume × Reclaim, (Sound none s.1 ∧ P s.1 s.2) → Volume.trimStep keep s = some (.inl t) →
      t.1.nodes.card < s.1.nodes.card := fun s t hs ht => (hstep s t hs ht).2
  unfold Volume.trimIdle
  obtain ⟨⟨w, l⟩, hwl⟩ := Option.isSome_iff_exists.1
    ((Loops.isSome_loop hsize hinv (Nat.lt_succ_self _) hstart).2 fun t ht => hready t (ht.inv hinv hstart))
  obtain ⟨⟨u, k⟩, hu, hend⟩ := Loops.loop_inv hinv hstart hwl
  rcases hu.1.trimStep hkeep k with ⟨id, rest, -, he⟩ | ⟨hle, he⟩
  · rw [he] at hend
    exact absurd (Option.some.inj hend) (by simp)
  · rw [he] at hend
    obtain ⟨rfl, rfl⟩ := Prod.mk.inj (Sum.inr.inj (Option.some.inj hend))
    exact ⟨u, k, hwl, hu.1, hle, hu.2⟩

/-- **`_Collect`**: what is loose is idle afterwards, unless it is needed; and what every round of trimming keeps, and a
node made idle, it keeps. -/
theorem Sound.collect (h : Sound (some id) v) (hid : id ∈ v.nodes) {P : Volume → Reclaim → Prop} (h0 : P v [])
    (hadd : P v [] → P (v.addIdle id) [])
    (hround : ∀ u l j rest, Sound none u → u.idleNodes = j :: rest → P u l →
      P ((u.removeHead j rest).orphan ((u.removeHead j rest).node j).parent) ((j, (u.removeHead j rest).node j) :: l)) :
    ∃ w l, v.collect id = some (w, l) ∧ Sound none w ∧ P w l := by
  unfold Volume.collect
  dsimp only
  split
  · rename_i hc
    refine ⟨v, [], rfl, h.tighten fun _ hr hu => ?_, h0⟩
    rcases hc with hc | hc | hc | hc | hc
    · exact absurd hc hr
    · rw [hu.1] at hc
      exact nomatch hc
    · exact absurd hc (by rw [hu.2]; decide)
    · exact absurd hc (by rw [hu.3]; decide)
    · exact (h.flag id hid).1 hc
  · rename_i hc
    simp only [not_or] at hc
    obtain ⟨hr, hpub, hpend, hchild, hidle⟩ := hc
    have hpend0 := h.pending id hid
    have hchild0 := h.children id hid
    have hneed : Unneeded (v.node id) := ⟨Bool.eq_false_of_not_eq_true hpub, by omega, by omega⟩
    obtain ⟨w, l, hw, hs, -, hp⟩ := (h.addIdle hid hr hneed (Bool.eq_false_of_not_eq_true hidle)).trimIdle
      (show 0 ≤ maxIdleNodes by decide) (hadd h0) hround
    exact ⟨w, l, hw, hs, hp⟩

/-! ## Parents -/

/-- **A node found elsewhere**: the directory it was found in is loose, the one it is found in is not idle. -/
theorem Sound.repoint (h : Sound none v) (hid : id ∈ v.nodes) {new : Id} (hnew : new = 0 ∨ new ∈ v.nodes) {w : Volume}
    (hnodes : w.nodes = v.nodes) (hidle : w.idleNodes = v.idleNodes.erase new) (hcount : w.idleCount = w.idleNodes.length)
    (hnode : ∀ j ∈ v.nodes, w.node j = { v.node j with
      parent := if j = id then new else (v.node j).parent
      children := (v.node j).children - (if v.up id = j then 1 else 0) + if new = j then 1 else 0
      idle := (v.node j).idle && decide (j ≠ new) }) : Sound (some (v.up id)) w := by
  have hupid : w.up id = new := by
    unfold up
    rw [hnode id hid]
    exact if_pos rfl
  have hupne (j : Id) (hj : j ∈ v.nodes) (hne : j ≠ id) : w.up j = v.up j := by
    unfold up
    rw [hnode j hj]
    exact if_neg hne
  have hmem (j : Id) : j ∈ w.idleNodes ↔ j ≠ new ∧ j ∈ v.idleNodes := by rw [hidle, h.nodup.mem_erase_iff]
  refine ⟨⟨hnodes ▸ h.root, hnodes ▸ h.zero, fun j hj => ?_, fun j hj => ?_, fun j hj => ?_⟩, ?_, hcount, fun j hj => ?_,
    fun j hj => ?_, fun j hj hr hu hl => ?_⟩
  · rw [hnodes] at hj ⊢
    have hc := h.children j hj
    have hchange : Pointers.count v.nodes w.up j + (if v.up id = j then 1 else 0) =
        Pointers.count v.nodes v.up j + if w.up id = j then 1 else 0 := Pointers.count_change hid hupne
    rw [hupid] at hchange
    rw [hnode j hj]
    change (v.node j).children - (if v.up id = j then 1 else 0) + (if new = j then 1 else 0) = _
    split at hchange <;> rename_i h1 <;> split at hchange <;> rename_i h2
    · rw [if_pos h1, if_pos h2]
      omega
    · rw [if_pos h1, if_neg h2]
      omega
    · rw [if_neg h1, if_pos h2]
      omega
    · rw [if_neg h1, if_neg h2]
      omega
  · rw [hnodes] at hj ⊢
    by_cases hne : j = id
    · rw [hne, hupid]
      exact fun h0 => hnew.resolve_left h0
    · rw [hupne j hj hne]
      exact h.parent j hj
  · rw [hnodes] at hj
    rw [hnode j hj]
    exact h.pending j hj
  · rw [hidle]
    exact h.nodup.erase new
  · rw [hnodes] at hj
    rw [hmem, hnode j hj, ← h.flag j hj]
    simp [and_comm]
  · obtain ⟨hne, hj⟩ := (hmem j).1 hj
    obtain ⟨hin, hr, hu⟩ := h.idle j hj
    have hold : v.up id ≠ j := by
      rintro rfl
      have hc := h.children _ hin
      have h0 := hu.children
      have hzero : Pointers.count v.nodes v.up (v.up id) = 0 := by omega
      exact Pointers.count_eq_zero.1 hzero id hid rfl
    refine ⟨hnodes ▸ hin, hr, ?_⟩
    rw [hnode j hin, if_neg hold, if_neg hne.symm]
    exact ⟨hu.1, hu.2, by rw [hu.3]; rfl⟩
  · rw [hnodes] at hj
    have hold : v.up id ≠ j := fun he => hl (congrArg some he.symm)
    have hc := h.children j hj
    rw [hnode j hj, if_neg hold] at hu
    have hu3 : (v.node j).children - 0 + (if new = j then 1 else 0) = 0 := hu.3
    have hne : new ≠ j := by
      intro he
      rw [if_pos he] at hu3
      omega
    rw [if_neg hne] at hu3
    exact (hmem j).2 ⟨hne.symm, h.unneeded j hj hr ⟨hu.1, hu.2, by omega⟩ (by simp)⟩

theorem former_cases (h : Tree v) {id parent : Id} (hne : v.up id ≠ parent) :
    (v.former id parent = some (v.up id) ∧ v.up id ∈ v.nodes) ∨ (v.former id parent = none ∧ v.up id ∉ v.nodes) := by
  unfold former
  dsimp only
  split
  · rename_i hc
    exact Or.inl ⟨rfl, hc.2.2⟩
  rename_i hc
  refine Or.inr ⟨rfl, fun hin => hc ⟨hne, fun h0 => h.zero ?_, hin⟩⟩
  rw [← h0]
  exact hin

theorem left_nodes (v : Volume) (o : Option Id) : (v.left o).nodes = v.nodes := by
  cases o <;> rfl

theorem left_node {o : Option Id} {old : Id} (ho : (o = some old ∧ old ∈ v.nodes) ∨ (o = none ∧ old ∉ v.nodes)) {j : Id}
    (hj : j ∈ v.nodes) :
    (v.left o).node j = { v.node j with children := (v.node j).children - if old = j then 1 else 0 } := by
  rcases ho with ⟨rfl, hin⟩ | ⟨rfl, hin⟩
  · unfold left
    dsimp only
    rw [modify_node]
    by_cases hj' : j = old
    · rw [if_pos hj', if_pos hj'.symm]
    · rw [if_neg hj', if_neg (fun he => hj' he.symm), Int.sub_zero]
  · have hne : old ≠ j := by
      rintro rfl
      exact hin hj
    rw [if_neg hne, Int.sub_zero]
    rfl

theorem entered_nodes (v : Volume) (id parent : Id) : (v.entered id parent).nodes = v.nodes := by
  unfold entered
  split
  · simp
  · rfl

theorem setParent_field {α : Type} {g : Node → α} (hf : ∀ (n : Node) (p : Id) (s : Option Name) (c : Int) (b : Bool),
    g { n with parent := p, name := s, children := c, idle := b } = g n) (v : Volume) (id parent : Id) (name : Name)
    (copied : Bool) (j : Id) : g ((v.setParent id parent name copied).1.node j) = g (v.node j) := by
  have hparent (w : Volume) (p : Id) : g ((w.modify id ({ · with parent := p })).node j) = g (w.node j) :=
    modify_field w id (hf (w.node id) _ _ _ _) j
  have hchild (w : Volume) (d : Id) (k : Int → Int) :
      g ((w.modify d fun n => { n with children := k n.children }).node j) = g (w.node j) :=
    modify_field w d (hf (w.node d) _ _ _ _) j
  have hleft (o : Option Id) : g ((v.left o).node j) = g (v.node j) := by
    cases o with
    | none     => rfl
    | some old => exact hchild v old (· - 1)
  have hentered (w : Volume) : g ((w.entered id parent).node j) = g (w.node j) := by
    unfold entered
    split
    · rw [hparent, hchild _ _ (· + 1), busy_field (fun n b => hf n _ _ _ b)]
    · exact hparent w 0
  have hmoved : g ((v.reparent id parent).node j) = g (v.node j) := by
    unfold reparent
    split
    · rw [hentered, hleft]
    · rfl
  change g (((v.reparent id parent).named id name copied).node j) = g (v.node j)
  rw [← hmoved]
  unfold named
  split
  · exact modify_field _ id (hf ((v.reparent id parent).node id) _ _ _ _) j
  · rfl

theorem reparent_nodes (v : Volume) (id parent : Id) : (v.reparent id parent).nodes = v.nodes := by
  unfold reparent
  split
  · rw [entered_nodes, left_nodes]
  · rfl

theorem setParent_nodes (v : Volume) (id parent : Id) (name : Name) (copied : Bool) :
    (v.setParent id parent name copied).1.nodes = v.nodes := by
  rw [← reparent_nodes v id parent]
  change ((v.reparent id parent).named id name copied).nodes = _
  unfold named
  split <;> rfl

theorem Sound.entered (h : Sound none v) (hid : id ∈ v.nodes) {parent : Id} (hne : v.up id ≠ parent) :
    Sound (v.former id parent) ((v.left (v.former id parent)).entered id parent) := by
  have hformer := former_cases h.toTree hne
  have hleft (j : Id) (hj : j ∈ v.nodes) := left_node hformer hj
  have hwn := left_nodes v (v.former id parent)
  have hwi : (v.left (v.former id parent)).idleNodes = v.idleNodes := by cases v.former id parent <;> rfl
  have hwc : (v.left (v.former id parent)).idleCount = v.idleCount := by cases v.former id parent <;> rfl
  generalize v.left (v.former id parent) = w at hleft hwn hwi hwc ⊢
  have hentered : Sound (some (v.up id)) (w.entered id parent) := by
    unfold Volume.entered
    split
    · rename_i hp
      rw [hwn] at hp
      have hflag : (w.node parent).idle = true ↔ parent ∈ w.idleNodes := by
        rw [hleft parent hp, hwi]
        exact h.flag parent hp
      obtain ⟨hbi, hbc⟩ := busy_idle hflag (by rw [hwc, hwi]; exact h.count)
      refine h.repoint hid (Or.inr hp) (by simp [hwn]) (by simp [hbi, hwi]) (by simp [hbi, hbc]) fun j hj => ?_
      rw [modify_node, modify_node, busy_node, hleft j hj]
      by_cases h1 : j = id <;> by_cases h2 : j = parent
      · rw [if_pos h1, if_pos h1, if_pos h2, if_pos h2.symm]
      · rw [if_pos h1, if_pos h1, if_neg h2, if_neg (Ne.symm h2), Int.add_zero]
      · rw [if_neg h1, if_neg h1, if_pos h2, if_pos h2.symm]
      · rw [if_neg h1, if_neg h1, if_neg h2, if_neg (Ne.symm h2), Int.add_zero]
    · have hz : (0 : Id) ∉ v.idleNodes := fun hin => h.zero (h.idle 0 hin).1
      refine h.repoint hid (Or.inl rfl) hwn ?_ ?_ fun j hj => ?_
      · rw [erase_of_not_mem hz]
        exact hwi
      · change w.idleCount = w.idleNodes.length
        rw [hwc, hwi]
        exact h.count
      · have hj0 : j ≠ 0 := by
          rintro rfl
          exact h.zero hj
        rw [modify_node, hleft j hj, if_neg hj0.symm, decide_eq_true hj0, Bool.and_true, Int.add_zero]
        by_cases h1 : j = id
        · rw [if_pos h1, if_pos h1]
        · rw [if_neg h1, if_neg h1]
  rcases hformer with ⟨ho, -⟩ | ⟨ho, hin⟩
  · rw [ho]
    exact hentered
  · rw [ho]
    refine hentered.tighten fun hw _ _ => absurd ?_ hin
    rwa [entered_nodes, hwn] at hw

/-- **`_SetParent` leaves the former parent loose**, if it changed, and nothing else. -/
theorem Sound.setParent (h : Sound none v) (hid : id ∈ v.nodes) (parent : Id) (name : Name) (copied : Bool) :
    Sound (v.setParent id parent name copied).2 (v.setParent id parent name copied).1 := by
  have hmoved : Sound (v.former id parent) (v.reparent id parent) := by
    unfold reparent
    split
    · rename_i hne
      exact h.entered hid hne
    · exact h.loosen
  change Sound (v.former id parent) ((v.reparent id parent).named id name copied)
  unfold named
  split
  · exact hmoved.modify_other ⟨rfl, rfl, rfl, rfl, rfl⟩
  · exact hmoved

theorem setParent_former (v : Volume) (id parent : Id) (name : Name) (copied : Bool) :
    ∀ old ∈ (v.setParent id parent name copied).2, old ∈ v.nodes := by
  intro old ho
  have ho : v.former id parent = some old := ho
  unfold former at ho
  dsimp only at ho
  split at ho
  · rename_i hc
    exact Option.some.inj ho ▸ hc.2.2
  · exact nomatch ho

end Volume

end Hostfs
end Prose
