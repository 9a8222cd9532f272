import Prose.HostfsSections
/-!
# HostfsOrder — the node table over every run of sections

A run is any list of sections, by whichever threads.  `_PollDirectory` pins the children it knows without taking them off
the idle list, where every other section does: `ordered_iff` says that this is the only way the table gets out of order.
-/
namespace Prose
namespace Hostfs

open Volume List

inductive Section
  | acquireEntry (entry : Entry) (at_ : Option (Id × Name)) (memory copied : Bool)
  | acquireNode (nodeid : Id)
  | acquireParent (id : Id)
  | unpend (id : Id)
  | publish (id : Id)
  | unpublish (id : Id)
  | moved (id parent : Id) (name : Name) (copied : Bool)
  /-- the first of a `_PollPass` -/
  | pinDirectories (directories : List Id)
  /-- the two of a `_PollDirectory`, the first of them also `MarkListed` -/
  | markListed (id : Id)
  | pinChildren (dir : Id) (known : List Id)
  /-- the one of `Unmount` -/
  | trimIdle

/-- The volume, and every node taken out of the table so far, as it was then. -/
structure Watched where
  volume : Volume
  taken : Reclaim := []

namespace Watched

def step (s : Watched) : Section → Option Watched
  | .acquireEntry entry at_ memory copied =>
    (s.volume.acquireEntry entry at_ memory copied).map fun x => ⟨x.1, x.2.getD [] ++ s.taken⟩
  | .acquireNode nodeid => some { s with volume := (s.volume.acquireNode nodeid).1 }
  | .acquireParent id => (s.volume.acquireParent id).map fun x => { s with volume := x.1 }
  | .unpend id => (s.volume.unpend id).map fun x => ⟨x.1, x.2 ++ s.taken⟩
  | .publish id => (s.volume.publish id).map fun v => { s with volume := v }
  | .unpublish id => (s.volume.unpublish id).map fun x => ⟨x.1, x.2 ++ s.taken⟩
  | .moved id parent name copied => (s.volume.moved id parent name copied).map fun x => ⟨x.1, x.2 ++ s.taken⟩
  | .pinDirectories directories => (s.volume.pinDirectories directories).map fun v => { s with volume := v }
  | .markListed id => (s.volume.markListed id).map fun x => { s with volume := x.1 }
  | .pinChildren dir known => (s.volume.pinChildren dir known).map fun v => { s with volume := v }
  | .trimIdle => (s.volume.trimIdle 0).map fun x => ⟨x.1, x.2 ++ s.taken⟩

/-- **The table is in order**: the idle list, its count, the counts of children, the parents, and what was taken out. -/
structure Ordered (s : Watched) : Prop where
  idle : ∀ id ∈ s.volume.nodes, id ≠ rootID → (id ∈ s.volume.idleNodes ↔
    (s.volume.node id).published = false ∧ (s.volume.node id).pending = 0 ∧ (s.volume.node id).children = 0)
  nodes : ∀ id ∈ s.volume.idleNodes, id ∈ s.volume.nodes ∧ id ≠ rootID
  nodup : s.volume.idleNodes.Nodup
  idleCount : s.volume.idleCount = s.volume.idleNodes.length
  children : ∀ id ∈ s.volume.nodes,
    (s.volume.node id).children = (s.volume.nodes.filter fun i => (s.volume.node i).parent = id).card
  parent : ∀ id ∈ s.volume.nodes, (s.volume.node id).parent ≠ 0 → (s.volume.node id).parent ∈ s.volume.nodes
  taken : ∀ n ∈ s.taken, n.2.published = false ∧ ¬ 0 < n.2.pending ∧ n.2.children = 0

def Awake (s : Watched) : Section → Prop
  | .pinChildren dir known => (s.volume.pinChildren dir known).isSome → ∀ id ∈ known, (s.volume.node id).idle = false
  | _                      => True

structure Kept (s : Watched) : Prop where
  sound : Sound none s.volume
  unneeded : ∀ n ∈ s.taken, Unneeded n.2

theorem Kept.ordered {s : Watched} (h : s.Kept) : s.Ordered := by
  refine ⟨fun id hid hr => ⟨fun hm => ?_, fun hu => ?_⟩, fun id hid => ?_, h.sound.nodup, h.sound.count, h.sound.children,
    h.sound.parent, fun n hn => ?_⟩
  · have hu := (h.sound.idle id hm).2.2
    exact ⟨hu.1, hu.2, hu.3⟩
  · exact h.sound.unneeded id hid hr ⟨hu.1, hu.2.1, hu.2.2⟩ (by simp)
  · exact ⟨(h.sound.idle id hid).1, (h.sound.idle id hid).2.1⟩
  · have hu := h.unneeded n hn
    exact ⟨hu.1, by rw [hu.2]; decide, hu.3⟩

theorem Kept.take {s : Watched} (h : s.Kept) {v : Volume} (hv : Sound none v) {l : Reclaim} (hl : ∀ n ∈ l, Unneeded n.2) :
    Kept ⟨v, l ++ s.taken⟩ :=
  ⟨hv, fun n hn => (mem_append.1 hn).elim (hl n) (h.unneeded n)⟩

theorem pinned_of_some {nodes : Finset Id} {p : Id → Prop} {max : Nat} {ids : List Id} (h : Iterated nodes p max ids) :
    ∀ id ∈ ids, id ∈ nodes := fun id hid => (h.2.1 id hid).1

/-- **One section.** -/
theorem Kept.step {s t : Watched} (h : s.Kept) {e : Section} (hc : s.Awake e) (ht : s.step e = some t) : t.Kept := by
  cases e with
  | acquireEntry entry at_ memory copied =>
    obtain ⟨x, hx, rfl⟩ := Option.map_eq_some_iff.1 ht
    rcases h.sound.acquireEntry entry at_ memory copied with he | ⟨w, l, he, hs, hacq⟩
    · rw [he] at hx
      cases hx
      exact h
    · rw [he] at hx
      cases hx
      exact h.take hs hacq.unneeded
  | acquireNode nodeid =>
    cases ht
    exact ⟨h.sound.acquireNode nodeid, h.unneeded⟩
  | acquireParent id =>
    obtain ⟨⟨v, o⟩, hx, rfl⟩ := Option.map_eq_some_iff.1 ht
    exact ⟨h.sound.acquireParent hx, h.unneeded⟩
  | unpend id =>
    obtain ⟨x, hx, rfl⟩ := Option.map_eq_some_iff.1 ht
    obtain ⟨hg, -⟩ := Option.ite_none_right_eq_some.1 hx
    obtain ⟨w, l, he, hs, -, -, hl⟩ := h.sound.unpend hg.1 hg.2
    rw [he] at hx
    cases hx
    exact h.take hs hl
  | publish id =>
    obtain ⟨v, hx, rfl⟩ := Option.map_eq_some_iff.1 ht
    obtain ⟨hg, -⟩ := Option.ite_none_right_eq_some.1 hx
    obtain ⟨w, he, hs, -⟩ := h.sound.publish hg
    rw [he] at hx
    cases hx
    exact ⟨hs, h.unneeded⟩
  | unpublish id =>
    obtain ⟨x, hx, rfl⟩ := Option.map_eq_some_iff.1 ht
    obtain ⟨hg, -⟩ := Option.ite_none_right_eq_some.1 hx
    obtain ⟨w, l, he, hs, -, -, hl⟩ := h.sound.unpublish hg
    rw [he] at hx
    cases hx
    exact h.take hs hl
  | moved id parent name copied =>
    obtain ⟨x, hx, rfl⟩ := Option.map_eq_some_iff.1 ht
    obtain ⟨hg, -⟩ := Option.ite_none_right_eq_some.1 hx
    obtain ⟨w, l, he, hs, -, -, hl⟩ := h.sound.moved hg parent name copied
    rw [he] at hx
    cases hx
    exact h.take hs hl
  | pinDirectories directories =>
    obtain ⟨v, hx, rfl⟩ := Option.map_eq_some_iff.1 ht
    obtain ⟨hg, hx⟩ := Option.ite_none_right_eq_some.1 hx
    cases hx
    exact ⟨(Sound.pinAll h.sound (pinned_of_some hg)).1, h.unneeded⟩
  | markListed id =>
    obtain ⟨x, hx, rfl⟩ := Option.map_eq_some_iff.1 ht
    obtain ⟨hg, -⟩ := Option.ite_none_right_eq_some.1 hx
    obtain ⟨w, b, he, hs, -⟩ := h.sound.markListed hg
    rw [he] at hx
    cases hx
    exact ⟨hs, h.unneeded⟩
  | pinChildren dir known =>
    obtain ⟨v, hx, rfl⟩ := Option.map_eq_some_iff.1 ht
    have hawake := hc (by rw [hx]; rfl)
    obtain ⟨hg, hx⟩ := Option.ite_none_right_eq_some.1 hx
    cases hx
    exact ⟨Sound.pendAll h.sound fun id hid => ⟨pinned_of_some hg id hid, hawake id hid⟩, h.unneeded⟩
  | trimIdle =>
    obtain ⟨x, hx, rfl⟩ := Option.map_eq_some_iff.1 ht
    obtain ⟨w, l, he, hs, -, htr⟩ := h.sound.trim (show (0 : Int) ≤ 0 by decide)
    rw [he] at hx
    cases hx
    exact h.take hs htr.unneeded

/-- **The other way about**: an idle child that is pinned is in the wrong list at once. -/
theorem Kept.awake {s : Watched} (h : s.Kept) {e : Section} (ho : ∀ t ∈ s.step e, t.Ordered) : s.Awake e := by
  cases e with
  | pinChildren dir known =>
    intro hsome id hid
    obtain ⟨v, hv⟩ := Option.isSome_iff_exists.1 hsome
    have hord := ho ⟨v, s.taken⟩ (by change (s.volume.pinChildren dir known).map _ = _; rw [hv]; rfl)
    obtain ⟨hg, hv⟩ := Option.ite_none_right_eq_some.1 hv
    cases hv
    have hin := pinned_of_some hg id hid
    obtain ⟨hnodes, hlist, -, hpinned⟩ := Volume.pendAll (pinned_of_some hg)
    refine Bool.eq_false_of_not_eq_true fun hidle => ?_
    have hm := (h.sound.flag id hin).1 hidle
    have hroot := (h.sound.idle id hm).2.1
    have hmem : id ∈ (known.foldl pend s.volume).nodes := by
      rw [hnodes]
      exact hin
    have hzero := ((hord.idle id hmem hroot).1 (by rw [hlist]; exact hm)).2.1
    have hp := hpinned id
    rw [pinned, if_pos hmem, hzero, pinned, if_pos hin, h.sound.pending_of hm] at hp
    have hcount := count_pos_iff.2 hid
    omega
  | acquireEntry _ _ _ _ => trivial
  | acquireNode _ => trivial
  | acquireParent _ => trivial
  | unpend _ => trivial
  | publish _ => trivial
  | unpublish _ => trivial
  | moved _ _ _ _ => trivial
  | pinDirectories _ => trivial
  | markListed _ => trivial
  | trimIdle => trivial

theorem kept_mounted : Kept ⟨mounted, []⟩ := by
  refine ⟨⟨⟨?_, ?_, ?_, ?_, ?_⟩, ?_, ?_, ?_, ?_, ?_⟩, fun n hn => nomatch hn⟩
  · exact Finset.mem_singleton_self _
  · decide
  · intro id hid
    rw [Finset.mem_singleton.1 hid]
    decide
  · exact fun _ _ h0 => absurd rfl h0
  · exact fun _ _ => Int.le_refl 0
  · exact nodup_nil
  · rfl
  · exact fun _ _ => iff_of_false Bool.false_ne_true not_mem_nil
  · exact fun _ hid => nomatch hid
  · exact fun _ _ _ hu => nomatch (show true = false from hu.1)

/-- **The table is in order all along exactly if no poll pass pins an idle child.** -/
theorem ordered_iff (es : List Section) :
    (∀ pre post s, es = pre ++ post → Runs.run step ⟨mounted, []⟩ pre = some s → s.Ordered) ↔
      Runs.Along step Awake ⟨mounted, []⟩ es := by
  refine Runs.along_states.trans ((and_iff_right kept_mounted.ordered).trans ?_)
  refine Runs.along_congr (I := Kept) (fun s e t hs hc ht => hs.step hc ht) (fun s e hs => ?_) kept_mounted
  exact ⟨hs.awake, fun hc t ht => (hs.step hc ht).ordered⟩

def leftFile : List Section :=
  [.acquireEntry ⟨2, 0x8000, 1⟩ (some (rootID, [97])) true true, .unpend 2, .pinDirectories [rootID], .markListed rootID,
    .pinChildren rootID [2]]

/-- It is pinned, and on the idle list. -/
theorem leftFile_pinned : ¬ ∀ es pre post s, es = pre ++ post → Runs.run step ⟨mounted, []⟩ pre = some s → s.Ordered := by
  intro h
  have hrun : ∃ s, Runs.run step ⟨mounted, []⟩ leftFile = some s ∧ (2 : Id) ∈ s.volume.nodes ∧
    (2 : Id) ∈ s.volume.idleNodes ∧ (s.volume.node 2).pending = 1 := ⟨_, rfl, by decide, by decide, by decide⟩
  obtain ⟨s, hrun, hin, hidle, hpending⟩ := hrun
  have hs := ((h leftFile leftFile [] s (append_nil _).symm hrun).idle 2 hin (by decide)).1 hidle
  rw [hpending] at hs
  exact absurd hs.2.1 (by decide)

end Watched

end Hostfs
end Prose
