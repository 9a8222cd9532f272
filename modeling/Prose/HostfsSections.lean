import Mathlib.Algebra.GroupWithZero.Nat
import Prose.HostfsTable
import Prose.Runs
/-!
# HostfsSections — the sections in any order

Each section keeps the table in order, but for the one in which `_PollDirectory` pins the children it knows: it does not
take them off the idle list.  So the table is in order all along exactly if none of them is idle then (`ordered_iff`).
-/
namespace Prose
namespace Hostfs
namespace Volume

open List

variable {v w : Volume} {id : Id} {l : Reclaim}

/-! ## Lookups and pins -/

def held (v : Volume) (i : Id) : Nat := if i ∈ v.nodes then (v.node i).lookups else 0

def pinned (v : Volume) (i : Id) : Int := if i ∈ v.nodes then (v.node i).pending else 0

def reclaimed (l : Reclaim) (i : Id) : Nat := (l.map fun n => if n.1 = i then n.2.lookups else 0).sum

/-- **What trimming does to the rest**: nodes go, with their lookups, and nobody needs them. -/
structure Trimmed (v w : Volume) (l : Reclaim) : Prop where
  held : ∀ i, v.held i = w.held i + reclaimed l i
  pinned : ∀ i, w.pinned i = v.pinned i
  nodes : ∀ i ∈ w.nodes, i ∈ v.nodes ∧ (w.node i).published = (v.node i).published ∧ w.up i = v.up i
  unneeded : ∀ n ∈ l, Unneeded n.2

theorem Trimmed.refl (v : Volume) : Trimmed v v [] :=
  ⟨fun _ => rfl, fun _ => rfl, fun _ h => ⟨h, rfl, rfl⟩, fun _ h => nomatch h⟩

theorem Trimmed.addIdle (h : Trimmed v w l) (id : Id) : Trimmed v (w.addIdle id) l := by
  refine ⟨fun i => ?_, fun i => ?_, fun i hi => ?_, h.unneeded⟩
  · rw [h.held i]
    unfold Volume.held
    rw [addIdle_field (g := Node.lookups) (fun _ => rfl)]
    rfl
  · rw [← h.pinned i]
    unfold Volume.pinned
    rw [addIdle_field (g := Node.pending) (fun _ => rfl)]
    rfl
  · have hf := addIdle_field (g := fun n => (n.published, n.parent)) (fun _ => rfl) w id i
    obtain ⟨h1, h2⟩ := Prod.mk.inj hf
    obtain ⟨h3, h4, h5⟩ := h.nodes i hi
    exact ⟨h3, h1.trans h4, h2.trans h5⟩

theorem orphan_field {α : Type} {g : Node → α} (hf : ∀ (n : Node) (c : Int) (b : Bool),
    g { n with children := c, idle := b } = g n) (v : Volume) (parent j : Id) :
    g ((v.orphan parent).node j) = g (v.node j) := by
  have hchild : g ((v.modify parent fun p => { p with children := p.children - 1 }).node j) = g (v.node j) :=
    modify_field v parent (hf (v.node parent) _ _) j
  unfold orphan
  split
  · dsimp only
    split
    · rw [addIdle_field (fun n => hf n _ _), hchild]
    · exact hchild
  · rfl

theorem Trimmed.round (h : Trimmed v w l) (hs : Sound none w) {rest : List Id} (hlist : w.idleNodes = id :: rest) :
    Trimmed v ((w.removeHead id rest).orphan ((w.removeHead id rest).node id).parent)
      ((id, (w.removeHead id rest).node id) :: l) := by
  have hid := (hs.idle id (by rw [hlist]; exact mem_cons_self)).1
  have hneed := (hs.round hlist).2
  have hself : (w.removeHead id rest).node id = { w.node id with idle := false } := Function.update_self ..
  have hother {i : Id} (hi : i ≠ id) : (w.removeHead id rest).node i = w.node i := Function.update_of_ne hi ..
  have hfield {α : Type} {g : Node → α} (hf : ∀ (n : Node) (c : Int) (b : Bool),
      g { n with children := c, idle := b } = g n) {i : Id} (hi : i ≠ id) :
      g (((w.removeHead id rest).orphan ((w.removeHead id rest).node id).parent).node i) = g (w.node i) := by
    rw [orphan_field hf, hother hi]
  have hmem (i : Id) : i ∈ ((w.removeHead id rest).orphan ((w.removeHead id rest).node id).parent).nodes ↔
      i ≠ id ∧ i ∈ w.nodes := by
    rw [orphan_nodes]
    exact Finset.mem_erase
  refine ⟨fun i => ?_, fun i => ?_, fun i hi => ?_, fun n hn => ?_⟩
  · rw [h.held i]
    unfold Volume.held reclaimed
    rw [map_cons, sum_cons]
    by_cases hi : i = id
    · subst hi
      rw [if_pos hid, if_neg (fun hc => ((hmem i).1 hc).1 rfl), if_pos rfl, hself]
      exact (Nat.zero_add _).symm
    rw [hfield (g := Node.lookups) (fun _ _ _ => rfl) hi, if_neg (Ne.symm hi), Nat.zero_add]
    refine congrArg (· + _) (if_congr ?_ rfl rfl)
    rw [hmem]
    exact (and_iff_right hi).symm
  · rw [← h.pinned i]
    unfold Volume.pinned
    by_cases hi : i = id
    · subst hi
      rw [if_neg (fun hc => ((hmem i).1 hc).1 rfl), if_pos hid]
      exact ((hs.idle i (by rw [hlist]; exact mem_cons_self)).2.2.2).symm
    rw [hfield (g := Node.pending) (fun _ _ _ => rfl) hi]
    refine if_congr ?_ rfl rfl
    rw [hmem]
    exact and_iff_right hi
  · obtain ⟨hne, hi⟩ := (hmem i).1 hi
    obtain ⟨h1, h2⟩ := Prod.mk.inj (hfield (g := fun n => (n.published, n.parent)) (fun _ _ _ => rfl) hne)
    obtain ⟨h3, h4, h5⟩ := h.nodes i hi
    exact ⟨h3, h1.trans h4, h2.trans h5⟩
  · rcases mem_cons.1 hn with rfl | hn
    · exact hneed
    · exact h.unneeded n hn

theorem Sound.trim (h : Sound none v) {keep : Int} (hkeep : 0 ≤ keep) : ∃ w l, v.trimIdle keep = some (w, l) ∧
    Sound none w ∧ w.idleCount ≤ keep ∧ Trimmed v w l :=
  h.trimIdle hkeep (.refl v) fun _ _ _ _ hs hlist ht => ht.round hs hlist

theorem Sound.collected (h : Sound (some id) v) (hid : id ∈ v.nodes) : ∃ w l, v.collect id = some (w, l) ∧
    Sound none w ∧ Trimmed v w l :=
  h.collect hid (.refl v) (fun ht => ht.addIdle id) fun _ _ _ _ hs hlist ht => ht.round hs hlist

theorem Sound.collectedOld {o : Option Id} (h : Sound o v) (ho : ∀ old ∈ o, old ∈ v.nodes) :
    ∃ w l, v.collectOld o = some (w, l) ∧ Sound none w ∧ Trimmed v w l := by
  cases o with
  | none     => exact ⟨v, [], rfl, h, .refl v⟩
  | some old => exact h.collected (ho old rfl)

/-! ## Each section -/

theorem Sound.needed (h : Sound (some id) v) (hn : ¬ Unneeded (v.node id)) : Sound none v :=
  h.tighten fun _ _ hu => absurd hu hn

theorem Sound.busied {loose : Option Id} (h : Sound loose v) (hloose : ∀ i, loose = some i → i = id) (hid : id ∈ v.nodes)
    {f : Node → Node} (hf : ∀ n, (f n).parent = n.parent ∧ (f n).children = n.children ∧ (f n).idle = n.idle)
    (hp : 0 ≤ (f ((v.busy id).node id)).pending) (hneed : ¬ Unneeded (f ((v.busy id).node id))) :
    Sound none ((v.busy id).modify id f) := by
  obtain ⟨hb, hnot⟩ := h.busy hloose hid
  refine (hb.modify (fun i hi => (Option.some.inj hi).symm) hnot (hf _) hp).needed ?_
  rw [modify_node_self]
  exact hneed

theorem Sound.pin (h : Sound none v) (hid : id ∈ v.nodes) : Sound none (v.pin id) := by
  have hpos : 0 ≤ ((v.busy id).node id).pending := by
    rw [busy_node]
    exact h.pending id hid
  refine h.busied (fun i hi => nomatch hi) hid (fun _ => ⟨rfl, rfl, rfl⟩) ?_ fun hu => ?_
  · change 0 ≤ ((v.busy id).node id).pending + 1
    omega
  · have h2 : ((v.busy id).node id).pending + 1 = 0 := hu.2
    omega

theorem Sound.acquireNode (h : Sound none v) (i : Id) : Sound none (v.acquireNode i).1 := by
  unfold Volume.acquireNode
  split
  · rename_i hi
    exact h.pin hi
  · exact h

theorem Sound.acquireParent (h : Sound none v) {o : Option Id} (ha : v.acquireParent id = some (w, o)) : Sound none w := by
  unfold Volume.acquireParent at ha
  obtain ⟨-, ha⟩ := Option.ite_none_right_eq_some.1 ha
  obtain ⟨parent, ha⟩ : ∃ parent, (if parent ≠ 0 then v.acquireNode parent else (v, none)) = (w, o) :=
    ⟨_, Option.some.inj ha⟩
  split at ha
  · have hs := h.acquireNode parent
    rwa [ha] at hs
  · obtain ⟨rfl, -⟩ := Prod.mk.inj ha
    exact h

theorem Sound.insert (h : Sound none v) {entry : Entry} (h0 : entry.nodeid ≠ 0) (hnew : entry.nodeid ∉ v.nodes) :
    Sound (some entry.nodeid) (v.insert entry) := by
  have hself : (v.insert entry).node entry.nodeid = { directory := isDir entry.mode } := Function.update_self ..
  have hother {j : Id} (hj : j ≠ entry.nodeid) : (v.insert entry).node j = v.node j := Function.update_of_ne hj ..
  have hmem (j : Id) : j ∈ (v.insert entry).nodes ↔ j = entry.nodeid ∨ j ∈ v.nodes := Finset.mem_insert
  have hne {j : Id} (hj : j ∈ v.nodes) : j ≠ entry.nodeid := by
    rintro rfl
    exact hnew hj
  have hup {j : Id} (hj : j ∈ v.nodes) : (v.insert entry).up j = v.up j := congrArg Node.parent (hother (hne hj))
  have hupself : (v.insert entry).up entry.nodeid = 0 := congrArg Node.parent hself
  have hcount (d : Id) (hd : d ≠ 0) :
      Pointers.count (v.insert entry).nodes (v.insert entry).up d = Pointers.count v.nodes v.up d := by
    refine (Pointers.count_insert hnew).trans ?_
    rw [hupself, if_neg hd.symm, Nat.add_zero]
    exact Pointers.count_congr fun j hj => hup hj
  have hroot : rootID ≠ entry.nodeid := hne h.root
  refine ⟨⟨(hmem _).2 (Or.inr h.root), ?_, fun j hj => ?_, fun j hj => ?_, fun j hj => ?_⟩, h.nodup, h.count, fun j hj => ?_,
    fun j hj => ?_, fun j hj hr hu hl => ?_⟩
  · rw [hmem]
    exact fun hz => hz.elim (fun he => h0 he.symm) h.zero
  · rcases (hmem j).1 hj with rfl | hj
    · rw [hself, hcount _ h0]
      have hz : Pointers.count v.nodes v.up entry.nodeid = 0 := by
        refine Pointers.count_eq_zero.2 fun k hk he => ?_
        exact hnew (he ▸ h.parent k hk (he ▸ h0))
      rw [hz]
      rfl
    · rw [hother (hne hj), hcount _ (fun he => h.zero (he ▸ hj))]
      exact h.children j hj
  · rcases (hmem j).1 hj with rfl | hj
    · exact fun hc => absurd hupself hc
    · rw [hup hj]
      exact fun hc => (hmem _).2 (Or.inr (h.parent j hj hc))
  · rcases (hmem j).1 hj with rfl | hj
    · rw [hself]
    · rw [hother (hne hj)]
      exact h.pending j hj
  · rcases (hmem j).1 hj with rfl | hj
    · rw [hself]
      exact iff_of_false (by simp) fun hc => hnew (h.idle _ hc).1
    · rw [hother (hne hj)]
      exact h.flag j hj
  · obtain ⟨hin, hr, hu⟩ := h.idle j hj
    rw [hother (hne hin)]
    exact ⟨(hmem j).2 (Or.inr hin), hr, hu⟩
  · have hje : j ≠ entry.nodeid := fun he => hl (congrArg some he)
    rw [hother hje] at hu
    exact h.unneeded j (((hmem j).1 hj).resolve_left hje) hr hu (by simp)

/-! ## What a section makes of lookups and pins -/

theorem held_congr (hn : w.nodes = v.nodes) (h : ∀ i, (w.node i).lookups = (v.node i).lookups) (i : Id) :
    w.held i = v.held i := by
  unfold held
  rw [hn, h]

theorem pinned_congr (hn : w.nodes = v.nodes) (h : ∀ i, (w.node i).pending = (v.node i).pending) (i : Id) :
    w.pinned i = v.pinned i := by
  unfold pinned
  rw [hn, h]

theorem held_modify (hid : id ∈ v.nodes) (f : Node → Node) (i : Id) :
    (v.modify id f).held i = if i = id then (f (v.node id)).lookups else v.held i := by
  unfold held
  rw [modify_nodes, modify_node]
  by_cases hi : i = id
  · rw [hi, if_pos rfl, if_pos hid, if_pos rfl]
  · rw [if_neg hi, if_neg hi]

theorem pinned_modify (hid : id ∈ v.nodes) (f : Node → Node) (i : Id) :
    (v.modify id f).pinned i = if i = id then (f (v.node id)).pending else v.pinned i := by
  unfold pinned
  rw [modify_nodes, modify_node]
  by_cases hi : i = id
  · rw [hi, if_pos rfl, if_pos hid, if_pos rfl]
  · rw [if_neg hi, if_neg hi]

theorem held_modify_same (v : Volume) (id : Id) {f : Node → Node} (hf : (f (v.node id)).lookups = (v.node id).lookups)
    (i : Id) : (v.modify id f).held i = v.held i :=
  held_congr (modify_nodes v id f) (fun j => modify_field (g := Node.lookups) v id hf j) i

theorem pinned_modify_same (v : Volume) (id : Id) {f : Node → Node} (hf : (f (v.node id)).pending = (v.node id).pending)
    (i : Id) : (v.modify id f).pinned i = v.pinned i :=
  pinned_congr (modify_nodes v id f) (fun j => modify_field (g := Node.pending) v id hf j) i

theorem held_busy (v : Volume) (id i : Id) : (v.busy id).held i = v.held i :=
  held_congr (busy_nodes v id) (fun _ => busy_field (g := Node.lookups) (fun _ _ => rfl) ..) i

theorem pinned_busy (v : Volume) (id i : Id) : (v.busy id).pinned i = v.pinned i :=
  pinned_congr (busy_nodes v id) (fun _ => busy_field (g := Node.pending) (fun _ _ => rfl) ..) i

theorem pinned_pin (hid : id ∈ v.nodes) (i : Id) : (v.pin id).pinned i = v.pinned i + if i = id then 1 else 0 := by
  have hb : id ∈ (v.busy id).nodes := by
    rw [busy_nodes]
    exact hid
  unfold Volume.pin
  rw [pinned_modify hb]
  split
  · rename_i hi
    subst hi
    rw [← pinned_busy v i i]
    unfold pinned
    rw [if_pos hb]
  · rw [pinned_busy, Int.add_zero]

theorem held_pin (hid : id ∈ v.nodes) (i : Id) : (v.pin id).held i = v.held i := by
  have hb : id ∈ (v.busy id).nodes := by
    rw [busy_nodes]
    exact hid
  unfold Volume.pin
  rw [held_modify hb]
  split
  · rename_i hi
    subst hi
    rw [← held_busy v i i]
    unfold held
    rw [if_pos hb]
  · exact held_busy v id i

/-- One lookup more, and one pin: what the host handed out is in the table. -/
structure Acquired (v w : Volume) (id : Id) (l : Reclaim) : Prop where
  held : ∀ i, v.held i + (if i = id then 1 else 0) = w.held i + reclaimed l i
  pinned : ∀ i, w.pinned i = v.pinned i + if i = id then 1 else 0
  unneeded : ∀ n ∈ l, Unneeded n.2

theorem Sound.known (h : Sound none v) {entry : Entry} (h0 : entry.nodeid ≠ 0) :
    ∃ loose, Sound loose (v.known entry) ∧ (∀ i, loose = some i → i = entry.nodeid) ∧ entry.nodeid ∈ (v.known entry).nodes ∧
      (∀ i, (v.known entry).held i = v.held i) ∧ ∀ i, (v.known entry).pinned i = v.pinned i := by
  unfold Volume.known
  split
  · rename_i hin
    exact ⟨none, h, fun i hi => (nomatch hi), hin, fun _ => rfl, fun _ => rfl⟩
  rename_i hin
  have hfresh {i : Id} (hi : i ≠ entry.nodeid) : (v.insert entry).node i = v.node i := Function.update_of_ne hi ..
  have hself : (v.insert entry).node entry.nodeid = { directory := isDir entry.mode } := Function.update_self ..
  have hmem (i : Id) : i ∈ (v.insert entry).nodes ↔ i = entry.nodeid ∨ i ∈ v.nodes := Finset.mem_insert
  refine ⟨_, h.insert h0 hin, fun i hi => (Option.some.inj hi).symm, (hmem _).2 (Or.inl rfl), fun i => ?_, fun i => ?_⟩
  · unfold Volume.held
    by_cases hi : i = entry.nodeid
    · rw [hi, if_pos ((hmem _).2 (Or.inl rfl)), if_neg hin, hself]
    · rw [hfresh hi]
      exact if_congr ((hmem i).trans (or_iff_right hi)) rfl rfl
  · unfold Volume.pinned
    by_cases hi : i = entry.nodeid
    · rw [hi, if_pos ((hmem _).2 (Or.inl rfl)), if_neg hin, hself]
    · rw [hfresh hi]
      exact if_congr ((hmem i).trans (or_iff_right hi)) rfl rfl

theorem Sound.handedOut {loose : Option Id} (h : Sound loose v) (hloose : ∀ i, loose = some i → i = id) (hid : id ∈ v.nodes) :
    Sound none (v.handedOut id) ∧ Acquired v (v.handedOut id) id [] := by
  have hb : id ∈ (v.busy id).nodes := by
    rw [busy_nodes]
    exact hid
  have hpend : 0 ≤ ((v.busy id).node id).pending := by
    rw [busy_node]
    exact h.pending _ hid
  unfold Volume.handedOut
  refine ⟨h.busied hloose hid (fun _ => ⟨rfl, rfl, rfl⟩) ?_ fun hu => ?_, fun i => ?_, fun i => ?_, fun n hn => nomatch hn⟩
  · change 0 ≤ ((v.busy id).node id).pending + 1
    omega
  · have h2 : ((v.busy id).node id).pending + 1 = 0 := hu.2
    omega
  · rw [held_modify hb, ← held_busy v id i]
    split
    · rename_i hi
      subst hi
      unfold Volume.held
      rw [if_pos hb]
      rfl
    · rfl
  · rw [pinned_modify hb, ← pinned_busy v id i]
    split
    · rename_i hi
      subst hi
      unfold Volume.pinned
      rw [if_pos hb]
    · rw [Int.add_zero]

theorem Sound.moving (h : Sound none v) (hid : id ∈ v.nodes) (parent : Id) (name : Name) (copied : Bool) :
    ∃ w l, (v.setParent id parent name copied).1.collectOld (v.setParent id parent name copied).2 = some (w, l) ∧
      Sound none w ∧ (∀ i, v.held i = w.held i + reclaimed l i) ∧ (∀ i, w.pinned i = v.pinned i) ∧ ∀ n ∈ l, Unneeded n.2 := by
  have hold := setParent_former v id parent name copied
  rw [← setParent_nodes v id parent name copied] at hold
  obtain ⟨w, l, hw, hsw, ht⟩ := (h.setParent hid parent name copied).collectedOld hold
  refine ⟨w, l, hw, hsw, fun i => ?_, fun i => ?_, ht.unneeded⟩
  · rw [← ht.held]
    exact (held_congr (setParent_nodes ..) (fun _ => setParent_field (g := Node.lookups) (fun _ _ _ _ _ => rfl) ..) i).symm
  · rw [ht.pinned]
    exact pinned_congr (setParent_nodes ..) (fun _ => setParent_field (g := Node.pending) (fun _ _ _ _ _ => rfl) ..) i

/-- **`AcquireEntry`**: there is no node, or the lookup is in the table. -/
theorem Sound.acquireEntry (h : Sound none v) (entry : Entry) (at_ : Option (Id × Name)) (memory copied : Bool) :
    v.acquireEntry entry at_ memory copied = some (v, none) ∨
      ∃ w l, v.acquireEntry entry at_ memory copied = some (w, some l) ∧ Sound none w ∧ Acquired v w entry.nodeid l := by
  unfold Volume.acquireEntry
  split
  · exact Or.inl rfl
  rename_i h0
  split
  · exact Or.inl rfl
  refine Or.inr ?_
  obtain ⟨loose, hk, hloose, hin, hheld, hpinned⟩ := h.known h0
  obtain ⟨hs, hacq⟩ := hk.handedOut hloose hin
  have hin' : entry.nodeid ∈ ((v.known entry).handedOut entry.nodeid).nodes := by
    unfold Volume.handedOut
    rw [modify_nodes, busy_nodes]
    exact hin
  have hacq' : Acquired v ((v.known entry).handedOut entry.nodeid) entry.nodeid [] :=
    ⟨fun i => by rw [← hheld]; exact hacq.held i, fun i => by rw [← hpinned]; exact hacq.pinned i, hacq.unneeded⟩
  generalize (v.known entry).handedOut entry.nodeid = u at hs hin' hacq' ⊢
  have hdone : ∃ w l, (some (u, ([] : Reclaim))).map (fun x => (x.1, some x.2)) = some (w, some l) ∧ Sound none w ∧
      Acquired v w entry.nodeid l := ⟨u, [], rfl, hs, hacq'⟩
  unfold foundIn
  split
  · rename_i parent name
    split
    · obtain ⟨w, l, hw, hsw, hh, hp, hun⟩ := hs.moving hin' parent name copied
      dsimp only
      rw [hw]
      refine ⟨w, l, rfl, hsw, fun i => ?_, fun i => (hp i).trans (hacq'.pinned i), hun⟩
      rw [hacq'.held, hh]
      rfl
    · exact hdone
  · exact hdone

/-! ## The other sections -/

theorem Sound.pending_of (h : Sound none v) (hid : id ∈ v.idleNodes) : (v.node id).pending = 0 := (h.idle id hid).2.2.2

/-- **`Unpend`.** -/
theorem Sound.unpend (h : Sound none v) (hid : id ∈ v.nodes) (hpos : 0 < (v.node id).pending) :
    ∃ w l, v.unpend id = some (w, l) ∧ Sound none w ∧ (∀ i, v.held i = w.held i + reclaimed l i) ∧
      (∀ i, v.pinned i = w.pinned i + if i = id then 1 else 0) ∧ ∀ n ∈ l, Unneeded n.2 := by
  have hnot : id ∉ v.idleNodes := fun hm => by
    have h0 := h.pending_of hm
    omega
  have hs : Sound (some id) (v.modify id fun n => { n with pending := n.pending - 1 }) :=
    h.modify (fun i hi => nomatch hi) hnot ⟨rfl, rfl, rfl⟩ (Int.sub_nonneg_of_le hpos)
  obtain ⟨w, l, hw, hsw, ht⟩ := hs.collected hid
  unfold Volume.unpend
  rw [if_pos ⟨hid, hpos⟩]
  refine ⟨w, l, hw, hsw, fun i => ?_, fun i => ?_, ht.unneeded⟩
  · rw [← ht.held, held_modify hid]
    split
    · rename_i hi
      rw [hi]
      exact if_pos hid
    · rfl
  · rw [ht.pinned, pinned_modify hid]
    split
    · rename_i hi
      rw [hi, pinned, if_pos hid]
      exact (Int.sub_add_cancel _ _).symm
    · exact (Int.add_zero _).symm

/-- **`Publish`.** -/
theorem Sound.publish (h : Sound none v) (hid : id ∈ v.nodes) : ∃ w, v.publish id = some w ∧ Sound none w ∧
    (∀ i, w.held i = v.held i) ∧ ∀ i, w.pinned i = v.pinned i := by
  unfold Volume.publish
  rw [if_pos hid]
  have hb : id ∈ (v.busy id).nodes := by
    rw [busy_nodes]
    exact hid
  refine ⟨_, rfl, h.busied (fun i hi => nomatch hi) hid (fun _ => ⟨rfl, rfl, rfl⟩) ?_ fun hu => ?_, fun i => ?_, fun i => ?_⟩
  · change 0 ≤ ((v.busy id).node id).pending
    rw [busy_node]
    exact h.pending id hid
  · exact absurd hu.1 (by simp)
  · rw [← held_busy v id i]
    exact held_modify_same _ id rfl i
  · rw [← pinned_busy v id i]
    exact pinned_modify_same _ id rfl i

/-- **`Unpublish`.** -/
theorem Sound.unpublish (h : Sound none v) (hid : id ∈ v.nodes) : ∃ w l, v.unpublish id = some (w, l) ∧ Sound none w ∧
    (∀ i, v.held i = w.held i + reclaimed l i) ∧ (∀ i, w.pinned i = v.pinned i) ∧ ∀ n ∈ l, Unneeded n.2 := by
  have hs : Sound (some id) (v.modify id ({ · with published := false })) := by
    by_cases hm : id ∈ v.idleNodes
    · refine Sound.loosen (h.modify_other ⟨rfl, rfl, rfl, rfl, (h.idle id hm).2.2.1.symm⟩)
    · exact h.modify (fun i hi => nomatch hi) hm ⟨rfl, rfl, rfl⟩ (h.pending id hid)
  obtain ⟨w, l, hw, hsw, ht⟩ := hs.collected hid
  unfold Volume.unpublish
  rw [if_pos hid]
  refine ⟨w, l, hw, hsw, fun i => ?_, fun i => ?_, ht.unneeded⟩
  · rw [← ht.held]
    exact (held_modify_same v id rfl i).symm
  · rw [ht.pinned]
    exact pinned_modify_same v id rfl i

/-- **`Moved`.** -/
theorem Sound.moved (h : Sound none v) (hid : id ∈ v.nodes) (parent : Id) (name : Name) (copied : Bool) :
    ∃ w l, v.moved id parent name copied = some (w, l) ∧ Sound none w ∧ (∀ i, v.held i = w.held i + reclaimed l i) ∧
      (∀ i, w.pinned i = v.pinned i) ∧ ∀ n ∈ l, Unneeded n.2 := by
  unfold Volume.moved
  rw [if_pos hid]
  exact h.moving hid parent name copied

theorem Sound.markListed (h : Sound none v) (hid : id ∈ v.nodes) : ∃ w b, v.markListed id = some (w, b) ∧ Sound none w ∧
    (∀ i, w.held i = v.held i) ∧ ∀ i, w.pinned i = v.pinned i := by
  unfold Volume.markListed
  rw [if_pos hid]
  exact ⟨_, _, rfl, h.modify_other ⟨rfl, rfl, rfl, rfl, rfl⟩, held_modify_same v id rfl, pinned_modify_same v id rfl⟩

/-- **Directories pinned**, one by one. -/
theorem Sound.pinAll : ∀ {ids : List Id} {v : Volume}, Sound none v → (∀ i ∈ ids, i ∈ v.nodes) →
    Sound none (ids.foldl Volume.pin v) ∧ (ids.foldl Volume.pin v).nodes = v.nodes ∧
      (∀ i, (ids.foldl Volume.pin v).held i = v.held i) ∧ ∀ i, (ids.foldl Volume.pin v).pinned i = v.pinned i + ids.count i
  | [], _, h, _            => ⟨h, rfl, fun _ => rfl, fun _ => (Int.add_zero _).symm⟩
  | id :: ids, v, h, hin => by
    have hid := hin id mem_cons_self
    have hn : (v.pin id).nodes = v.nodes := busy_nodes v id
    have hrest : ∀ i ∈ ids, i ∈ (v.pin id).nodes := fun i hi => by
      rw [hn]
      exact hin i (mem_cons_of_mem id hi)
    obtain ⟨hs, hnodes, hheld, hpinned⟩ := Sound.pinAll (h.pin hid) hrest
    refine ⟨hs, hnodes.trans hn, fun i => (hheld i).trans (held_pin hid i), fun i => ?_⟩
    rw [foldl_cons, hpinned, pinned_pin hid, List.count_cons]
    by_cases hi : i = id
    · rw [if_pos hi, if_pos (beq_iff_eq.2 hi.symm)]
      omega
    · rw [if_neg hi, if_neg (fun he => hi (beq_iff_eq.1 he).symm)]
      omega

theorem Sound.pend (h : Sound none v) (hid : id ∈ v.nodes) (hidle : (v.node id).idle = false) : Sound none (v.pend id) := by
  have hnot : id ∉ v.idleNodes := fun hm => by
    rw [(h.flag id hid).2 hm] at hidle
    exact nomatch hidle
  have hpos := h.pending id hid
  refine (h.modify (fun i hi => nomatch hi) hnot ⟨rfl, rfl, rfl⟩ ?_).needed fun hu => ?_
  · change 0 ≤ (v.node id).pending + 1
    omega
  · have h2 := hu.2
    rw [modify_node_self] at h2
    have h2 : (v.node id).pending + 1 = 0 := h2
    omega

/-- **Children pinned**, as they are. -/
theorem pendAll : ∀ {ids : List Id} {v : Volume}, (∀ i ∈ ids, i ∈ v.nodes) →
    (ids.foldl pend v).nodes = v.nodes ∧ (ids.foldl pend v).idleNodes = v.idleNodes ∧
      (∀ i, (ids.foldl pend v).held i = v.held i) ∧ ∀ i, (ids.foldl pend v).pinned i = v.pinned i + ids.count i
  | [], _, _            => ⟨rfl, rfl, fun _ => rfl, fun _ => (Int.add_zero _).symm⟩
  | id :: ids, v, hin => by
    have hid := hin id mem_cons_self
    have hrest : ∀ i ∈ ids, i ∈ (v.pend id).nodes := fun i hi => hin i (mem_cons_of_mem id hi)
    obtain ⟨hnodes, hidle, hheld, hpinned⟩ := pendAll hrest
    refine ⟨hnodes, hidle, fun i => (hheld i).trans (held_modify_same v id rfl i), fun i => ?_⟩
    · rw [foldl_cons, hpinned, Volume.pend, pinned_modify hid, List.count_cons]
      by_cases hi : i = id
      · rw [if_pos hi, if_pos (beq_iff_eq.2 hi.symm), hi, pinned, if_pos hid]
        change (v.node id).pending + 1 + _ = _
        omega
      · rw [if_neg hi, if_neg (fun he => hi (beq_iff_eq.1 he).symm)]
        omega

theorem Sound.pendAll : ∀ {ids : List Id} {v : Volume}, Sound none v → (∀ i ∈ ids, i ∈ v.nodes ∧ (v.node i).idle = false) →
    Sound none (ids.foldl Volume.pend v)
  | [], _, h, _            => h
  | id :: ids, v, h, hin => by
    obtain ⟨hid, hidle⟩ := hin id mem_cons_self
    have hrest : ∀ i ∈ ids, i ∈ (v.pend id).nodes ∧ ((v.pend id).node i).idle = false := fun i hi => by
      obtain ⟨hi1, hi2⟩ := hin i (mem_cons_of_mem id hi)
      exact ⟨hi1, (modify_field (g := Node.idle) v id rfl i).trans hi2⟩
    rw [foldl_cons]
    exact Sound.pendAll (h.pend hid hidle) hrest

end Volume

end Hostfs
end Prose
