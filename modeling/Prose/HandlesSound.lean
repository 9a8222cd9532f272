import Prose.HandlesModel
/-!
# HandlesSound — who has a handle, and who has to release it

A thread's debt is the handle it uses, the handles it has to release, and its shares of the counts: cookies it has not given
to the VFS, pending lookups, references.  `Held` ties the host's handles to the node and the debts, `Counts` the counts; every
action of a thread that has the right to it keeps both.  A handle parked in `staleFh` is the only one: what replaces it is
read-write, and goes only when nobody uses any.
-/
namespace Prose
namespace HostfsFile

open Tasks

structure Debt where
  uses : Multiset Handle := 0
  owed : Multiset Handle := 0
  brought : Multiset Handle := 0
  opens : Nat := 0
  pending : Nat := 0
  vnode : Nat := 0
  paging : Nat := 0
  deleting : Nat := 0
  closing : Nat := 0

namespace Debt

/-- A handle is used under a reference, a cookie made under one or under a pending lookup, and nothing is left to be released
when both are gone. -/
structure Wf (g : Debt) : Prop where
  uses : g.uses.card ≤ g.vnode + g.paging
  opens : g.opens ≤ g.vnode + g.pending
  owed : g.vnode + g.paging + g.pending + g.deleting + g.closing = 0 → g.owed = 0

def Clear (g : Debt) : Prop :=
  g.uses = 0 ∧ g.owed = 0 ∧ g.brought = 0 ∧ g.opens = 0 ∧ g.pending = 0 ∧ g.vnode = 0 ∧ g.paging = 0 ∧
    g.deleting = 0 ∧ g.closing = 0

end Debt

def single : Option Handle → Multiset Handle
  | none => 0
  | some fh => {fh}

def after : (a : Act) → Answer a → Debt → Debt
  | .getFh _, some (fh, old), g => { g with uses := fh ::ₘ g.uses, owed := g.owed + single old }
  | .putFh, fhs, g => { g with uses := 0, owed := g.owed + fhs }
  | .addOpen, _, g => { g with opens := g.opens + 1 }
  | .dropOpen, old, g => { g with opens := g.opens - 1, owed := g.owed + single old }
  | .dropHandle, old, g => { g with owed := g.owed + single old }
  | .created fh, one, g => { g with opens := g.opens + 1, brought := if one then g.brought else g.brought - single fh }
  | .release fh, _, g => { g with owed := g.owed.erase fh }
  | .fuseCreate, .made fh, g => { g with brought := fh ::ₘ g.brought }
  | .giveBack fh, _, g => { g with brought := g.brought.erase fh }
  | .acquireEntry, true, g => { g with pending := g.pending + 1 }
  | .unpend, _, g => { g with pending := g.pending - 1 }
  | .getVnode, true, g => { g with vnode := g.vnode + 1 }
  | .giveCookie, _, g => { g with opens := g.opens - 1 }
  | .leave, _, g => { g with vnode := g.vnode - 1 }
  | .leavePages, _, g => { g with paging := g.paging - 1 }
  | .deleteCache, _, g => { g with deleting := g.deleting - 1, closing := g.closing + 1 }
  | .unpublish, _, g => { g with closing := g.closing - 1 }
  | _, _, g => g

def ready : Act → Debt → Prop
  | .getFh _, g => g.uses.card < g.vnode + g.paging
  | .putFh, g => g.uses.card = 1
  | .addOpen, g => g.opens < g.vnode + g.pending
  | .dropOpen, g => 0 < g.opens
  | .dropHandle, g => 0 < g.closing
  | .created fh, g => g.opens < g.vnode + g.pending ∧ single fh ≤ g.brought
  | .release fh, g => fh ∈ g.owed
  | .request _ fh, g => fh ∈ g.uses
  | .giveBack fh, g => fh ∈ g.brought
  | .unpend, g => 0 < g.pending ∧ (after .unpend () g).Wf
  | .getVnode, g => 0 < g.pending
  | .giveCookie, g => 0 < g.opens ∧ 0 < g.vnode
  | .leave, g => 0 < g.vnode ∧ (after .leave () g).Wf
  | .leavePages, g => 0 < g.paging ∧ (after .leavePages () g).Wf
  | .deleteCache, g => 0 < g.deleting
  | .unpublish, g => 0 < g.closing ∧ (after .unpublish () g).Wf
  | _, _ => True

theorem Debt.Wf.after {g : Debt} (h : g.Wf) : ∀ {a : Act}, ready a g → ∀ r : Answer a, (after a r g).Wf
  | .getFh _, _, none => h
  | .getFh _, hr, some (fh, old) =>
    have hr : g.uses.card < g.vnode + g.paging := hr
    ⟨by show (fh ::ₘ g.uses).card ≤ _; rw [Multiset.card_cons]; exact hr, h.opens, fun hz => by
      have : g.vnode + g.paging + g.pending + g.deleting + g.closing = 0 := hz
      omega⟩
  | .putFh, hr, _ =>
    have hr : g.uses.card = 1 := hr
    ⟨Nat.zero_le _, h.opens, fun hz => by
      have := h.uses
      have : g.vnode + g.paging + g.pending + g.deleting + g.closing = 0 := hz
      omega⟩
  | .addOpen, hr, _ => ⟨h.uses, hr, h.owed⟩
  | .dropOpen, hr, _ =>
    have hr : 0 < g.opens := hr
    ⟨h.uses, Nat.le_trans (Nat.sub_le ..) h.opens, fun hz => by
      have := h.opens
      have : g.vnode + g.paging + g.pending + g.deleting + g.closing = 0 := hz
      omega⟩
  | .dropHandle, hr, _ =>
    have hr : 0 < g.closing := hr
    ⟨h.uses, h.opens, fun hz => by
      have : g.vnode + g.paging + g.pending + g.deleting + g.closing = 0 := hz
      omega⟩
  | .created _, hr, _ => ⟨h.uses, hr.1, h.owed⟩
  | .release fh, hr, _ => ⟨h.uses, h.opens, fun hz => by
      have hr : fh ∈ g.owed := hr
      rw [h.owed hz] at hr
      exact absurd hr (Multiset.notMem_zero fh)⟩
  | .fuseCreate, _, .made _ => ⟨h.uses, h.opens, h.owed⟩
  | .fuseCreate, _, .failed => h
  | .fuseCreate, _, .unsupported => h
  | .giveBack _, _, _ => ⟨h.uses, h.opens, h.owed⟩
  | .acquireEntry, _, true => ⟨h.uses, Nat.le_succ_of_le h.opens, fun hz => by
      have : g.vnode + g.paging + (g.pending + 1) + g.deleting + g.closing = 0 := hz
      omega⟩
  | .acquireEntry, _, false => h
  | .unpend, hr, _ => hr.2
  | .getVnode, _, true => ⟨by
      have := h.uses
      show g.uses.card ≤ g.vnode + 1 + g.paging
      omega, by
      have := h.opens
      show g.opens ≤ g.vnode + 1 + g.pending
      omega, fun hz => by
      have : g.vnode + 1 + g.paging + g.pending + g.deleting + g.closing = 0 := hz
      omega⟩
  | .getVnode, _, false => h
  | .giveCookie, _, _ => ⟨h.uses, Nat.le_trans (Nat.sub_le ..) h.opens, h.owed⟩
  | .leave, hr, _ => hr.2
  | .leavePages, hr, _ => hr.2
  | .deleteCache, _, _ => ⟨h.uses, h.opens, fun hz => by
      have : g.vnode + g.paging + g.pending + (g.deleting - 1) + (g.closing + 1) = 0 := hz
      omega⟩
  | .unpublish, hr, _ => hr.2
  | .haveFh, _, _ | .size, _, _ | .request _ _, _, _ | .other, _, _ => h

/-! ## The programs -/

abbrev Owing (p : Hook Unit) (g : Debt) : Prop := Honest ready after (fun _ _ => True) Debt.Clear p g

abbrev From {α : Type} (p : Hook α) (g : Debt) (Q : α → Debt → Prop) : Prop := Settles ready after (fun _ _ => True) p g Q

theorem releaseAll_settles {Q : Unit → Debt → Prop} : ∀ (owed : Multiset Handle) {fhs : List Handle} {g : Debt},
    g.owed = owed + fhs → Q () { g with owed } → From (releaseAll fhs) g Q
  | owed, [], g, ho, hq => by
    have : g = { g with owed } := by rw [show owed = g.owed by simpa using ho.symm]
    show Q () g
    rw [this]
    exact hq
  | owed, fh :: fhs, g, ho, hq => by
    refine settles_bind.2 (settles_one.2 ⟨?_, fun _ _ => ?_⟩)
    · show fh ∈ g.owed
      rw [ho]
      simp
    · refine releaseAll_settles owed ?_ hq
      show g.owed.erase fh = _
      rw [ho, ← Multiset.cons_coe, Multiset.add_cons, Multiset.erase_cons_head]

theorem coe_toList (old : Option Handle) : ((old.toList : List Handle) : Multiset Handle) = single old := by
  cases old <;> rfl

theorem release_settles {g : Debt} {Q : Unit → Debt → Prop} (old : Option Handle) (hq : Q () g) :
    From (releaseAll old.toList) { g with owed := g.owed + single old } Q :=
  releaseAll_settles g.owed (by rw [coe_toList]) hq

section
variable {g : Debt}

theorem nodeGetFh_settles {Q : Option Handle → Debt → Prop} (write : Bool) (hr : g.uses.card < g.vnode + g.paging) (hnone : Q none g)
    (hsome : ∀ fh, Q (some fh) { g with uses := fh ::ₘ g.uses }) : From (nodeGetFh write) g Q := by
  refine settles_bind.2 (settles_one.2 ⟨hr, fun r _ => ?_⟩)
  match r with
  | none => exact hnone
  | some (fh, old) => exact settles_bind.2 (release_settles (g := { g with uses := fh ::ₘ g.uses }) old (hsome fh))

theorem nodePutFh_settles {Q : Unit → Debt → Prop} (hr : g.uses.card = 1) (hq : Q () { g with uses := 0 }) :
    From nodePutFh g Q :=
  settles_bind.2 (settles_one.2 ⟨hr, fun _ _ => releaseAll_settles g.owed rfl hq⟩)

theorem readVec_settles {Q : Bool × Bool → Debt → Prop} (m : Mount) {fh : Handle} (hfh : fh ∈ g.uses) (hq : ∀ x, Q x g)
    (length vecDone : Nat) (eof : Bool) : From (readVec m fh length vecDone eof) g Q := by
  fun_induction readVec m fh length vecDone eof with
  | case1 vecDone _ ih => exact ih
  | case2 vecDone eof _ _ ih =>
    refine settles_bind.2 (settles_one.2 ⟨hfh, fun r _ => ?_⟩)
    cases r.ok
    · exact hq _
    · exact ih _
  | case3 => exact hq _

theorem readVecs_settles {Q : Unit → Debt → Prop} (m : Mount) {fh : Handle} (hfh : fh ∈ g.uses) (hq : Q () g) (requested : Nat) :
    ∀ (vecs : List Nat) (done : Nat) (eof : Bool), From (readVecs m fh requested vecs done eof) g Q
  | [], _, _ => hq
  | length :: vecs, done, eof => by
    unfold readVecs
    split
    · refine settles_bind.2 (readVec_settles m hfh (fun x => ?_) _ _ _)
      obtain ⟨ok, eof⟩ := x
      cases ok
      · exact hq
      · exact readVecs_settles m hfh hq requested vecs _ _
    · exact hq

theorem writeVec_settles {Q : Bool → Debt → Prop} (m : Mount) {fh : Handle} (hfh : fh ∈ g.uses) (hq : ∀ x, Q x g)
    (length vecDone : Nat) : From (writeVec m fh length vecDone) g Q := by
  fun_induction writeVec m fh length vecDone with
  | case1 vecDone _ ih =>
    refine settles_bind.2 (settles_one.2 ⟨hfh, fun r _ => ?_⟩)
    split
    · exact hq _
    · exact ih r (by assumption)
  | case2 => exact hq _

theorem writeVecs_settles {Q : Unit → Debt → Prop} (m : Mount) {fh : Handle} (hfh : fh ∈ g.uses) (hq : Q () g) (toWrite : Nat) :
    ∀ (vecs : List Nat) (done : Nat), From (writeVecs m fh toWrite vecs done) g Q
  | [], _ => hq
  | length :: vecs, done => by
    unfold writeVecs
    split
    · refine settles_bind.2 (writeVec_settles m hfh (fun ok => ?_) _ _)
      cases ok
      · exact hq
      · exact writeVecs_settles m hfh hq toWrite vecs _
    · exact hq

end

theorem leave_settles : From (ask .leave) { vnode := 1 } fun _ g => g.Clear :=
  settles_one.2 ⟨⟨Nat.one_pos, ⟨Nat.le_refl _, Nat.le_refl _, fun _ => rfl⟩⟩, fun _ _ => ⟨rfl, rfl, rfl, rfl, rfl, rfl, rfl, rfl, rfl⟩⟩

theorem leavePages_settles : From (ask .leavePages) { paging := 1 } fun _ g => g.Clear :=
  settles_one.2 ⟨⟨Nat.one_pos, ⟨Nat.le_refl _, Nat.le_refl _, fun _ => rfl⟩⟩, fun _ _ => ⟨rfl, rfl, rfl, rfl, rfl, rfl, rfl, rfl, rfl⟩⟩

theorem readPages_owing (m : Mount) (vecs : List Nat) (requested : Nat) : Owing (readPages m vecs requested) { paging := 1 } :=
  settles_bind.2 (nodeGetFh_settles false Nat.one_pos leavePages_settles fun fh =>
    settles_bind.2 (readVecs_settles m (Multiset.mem_singleton_self fh)
      (settles_bind.2 (nodePutFh_settles rfl leavePages_settles)) requested vecs 0 false))

theorem writePages_owing (m : Mount) (pos : Nat) (vecs : List Nat) (requested : Nat) :
    Owing (writePages m pos vecs requested) { paging := 1 } := by
  unfold writePages
  split
  · exact leavePages_settles
  refine settles_bind.2 (settles_one.2 ⟨trivial, fun size _ => ?_⟩)
  split
  · exact leavePages_settles
  · exact settles_bind.2 (nodeGetFh_settles true Nat.one_pos leavePages_settles fun fh =>
      settles_bind.2 (writeVecs_settles m (Multiset.mem_singleton_self fh)
        (settles_bind.2 (nodePutFh_settles rfl leavePages_settles)) _ vecs 0))

theorem request_settles {op : Opcode} {fh : Handle} {p : Hook Unit} (hp : From p { vnode := 1, uses := {fh} } fun _ g => g.Clear) :
    From (ask (.request op fh) >>= fun _ => p) { vnode := 1, uses := {fh} } fun _ g => g.Clear :=
  settles_bind.2 (settles_one.2 ⟨Multiset.mem_singleton_self fh, fun _ _ => hp⟩)

theorem fsync_owing : Owing fsync { vnode := 1 } := by
  refine settles_bind.2 (settles_one.2 ⟨trivial, fun have_ _ => ?_⟩)
  cases have_
  · exact leave_settles
  · exact settles_bind.2 (nodeGetFh_settles false Nat.one_pos leave_settles fun _ =>
      request_settles (settles_bind.2 (nodePutFh_settles rfl leave_settles)))

theorem close_owing (writable : Bool) : Owing (close writable) { vnode := 1 } := by
  cases writable
  · exact leave_settles
  · exact settles_bind.2 (nodeGetFh_settles false Nat.one_pos leave_settles fun _ =>
      request_settles (settles_bind.2 (nodePutFh_settles rfl leave_settles)))

/-- The cookie's share of `opens` is taken off again, with the handle if that was the last. -/
theorem dropOpen_settles {g : Debt} (ho : 0 < g.opens) {p : Hook Unit} (hp : From p { g with opens := g.opens - 1 } fun _ g => g.Clear) :
    From (ask .dropOpen >>= fun fh => releaseAll fh.toList >>= fun _ => p) g fun _ g => g.Clear :=
  settles_bind.2 (settles_one.2 ⟨ho, fun old _ =>
    settles_bind.2 (release_settles (g := { g with opens := g.opens - 1 }) old hp)⟩)

theorem freeCookie_owing : Owing freeCookie { vnode := 1, opens := 1 } := dropOpen_settles Nat.one_pos leave_settles

theorem giveCookie_settles : From (ask .giveCookie >>= fun _ => ask .leave) { vnode := 1, opens := 1 } fun _ g => g.Clear :=
  settles_bind.2 (settles_one.2 ⟨⟨Nat.one_pos, Nat.one_pos⟩, fun _ _ => leave_settles⟩)

theorem tryOpen_settles {Q : Bool → Debt → Prop} (truncate : Bool) (hq : ∀ ok, Q ok { vnode := 1, opens := 1 }) :
    From (tryOpen truncate) { vnode := 1, opens := 1 } Q := by
  refine settles_bind.2 (nodeGetFh_settles true Nat.one_pos (hq false) fun fh => ?_)
  refine settles_bind.2 (nodePutFh_settles rfl ?_)
  cases truncate
  · exact hq true
  · exact settles_one.2 ⟨trivial, fun ok _ => hq ok⟩

theorem openFile_owing (writable truncate : Bool) : Owing (openFile writable truncate) { vnode := 1 } := by
  refine settles_bind.2 (settles_one.2 ⟨trivial, fun ok _ => ?_⟩)
  cases ok
  · exact leave_settles
  · refine settles_bind.2 (settles_one.2 ⟨Nat.one_pos, fun _ _ => ?_⟩)
    have hrest (ok : Bool) : From (if ok = true then ask .giveCookie >>= fun _ => ask .leave
        else ask .dropOpen >>= fun fh => releaseAll fh.toList >>= fun _ => ask .leave) { vnode := 1, opens := 1 } fun _ g => g.Clear := by
      cases ok
      · exact freeCookie_owing
      · exact giveCookie_settles
    cases writable
    · exact hrest true
    · exact settles_bind.2 (tryOpen_settles truncate hrest)

theorem giveBack_settles {g : Debt} {Q : Unit → Debt → Prop} : ∀ {fh : Option Handle}, g.brought = single fh →
    Q () { g with brought := 0 } → From (giveBack fh) g Q
  | none, hb, hq => by
    have : g = { g with brought := 0 } := by rw [show (0 : Multiset Handle) = g.brought from hb.symm]
    show Q () g
    rw [this]
    exact hq
  | some fh, hb, hq => by
    have hb : g.brought = {fh} := hb
    refine settles_one.2 ⟨?_, fun _ _ => ?_⟩
    · show fh ∈ g.brought
      rw [hb]
      exact Multiset.mem_singleton_self fh
    · show Q () { g with brought := g.brought.erase fh }
      rw [hb, Multiset.erase_singleton]
      exact hq

theorem createNode_owing (fh : Option Handle) : Owing (createNode fh) { brought := single fh } := by
  refine settles_bind.2 (settles_one.2 ⟨trivial, fun ok _ => ?_⟩)
  cases ok
  · exact giveBack_settles rfl ⟨rfl, rfl, rfl, rfl, rfl, rfl, rfl, rfl, rfl⟩
  · refine settles_bind.2 (settles_one.2 ⟨⟨Nat.one_pos, le_refl (single fh)⟩, fun one _ => ?_⟩)
    have hrest : From (do
        if ← ask .getVnode then
          ask .unpend
          ask .giveCookie
          ask .leave
        else
          let old ← ask .dropOpen
          releaseAll old.toList
          ask .unpend) { pending := 1, opens := 1 } fun _ g => g.Clear := by
      refine settles_bind.2 (settles_one.2 ⟨Nat.one_pos, fun ok _ => ?_⟩)
      cases ok
      · exact dropOpen_settles Nat.one_pos (settles_one.2 ⟨⟨Nat.one_pos, ⟨Nat.le_refl _, Nat.le_refl _, fun _ => rfl⟩⟩,
          fun _ _ => ⟨rfl, rfl, rfl, rfl, rfl, rfl, rfl, rfl, rfl⟩⟩)
      · exact settles_bind.2 (settles_one.2 ⟨⟨Nat.one_pos, ⟨Nat.zero_le _, Nat.le_refl _, fun _ => rfl⟩⟩,
          fun _ _ => giveCookie_settles⟩)
    cases one
    · show From _ { pending := 1, opens := 1, brought := single fh - single fh } _
      rw [show single fh - single fh = 0 by ext a; simp]
      exact hrest
    · exact settles_bind.2 (giveBack_settles rfl hrest)

theorem create_owing (m : Mount) : Owing (create m) {} := by
  have hclear : Debt.Clear {} := ⟨rfl, rfl, rfl, rfl, rfl, rfl, rfl, rfl, rfl⟩
  unfold create
  split
  · exact hclear
  refine settles_bind.2 (settles_one.2 ⟨trivial, fun r _ => ?_⟩)
  cases r with
  | made fh => exact createNode_owing (some fh)
  | failed => exact hclear
  | unsupported =>
    refine settles_bind.2 (settles_one.2 ⟨trivial, fun ok _ => ?_⟩)
    cases ok
    · exact hclear
    · exact createNode_owing none

theorem lookup_owing : Owing lookup {} := by
  refine settles_bind.2 (settles_one.2 ⟨trivial, fun ok _ => ?_⟩)
  cases ok
  · exact ⟨rfl, rfl, rfl, rfl, rfl, rfl, rfl, rfl, rfl⟩
  · refine settles_bind.2 (settles_one.2 ⟨Nat.one_pos, fun ok _ => ?_⟩)
    cases ok
    · exact settles_one.2 ⟨⟨Nat.one_pos, ⟨Nat.le_refl _, Nat.zero_le _, fun _ => rfl⟩⟩,
        fun _ _ => ⟨rfl, rfl, rfl, rfl, rfl, rfl, rfl, rfl, rfl⟩⟩
    · exact settles_bind.2 (settles_one.2 ⟨⟨Nat.one_pos, ⟨Nat.zero_le _, Nat.zero_le _, fun _ => rfl⟩⟩,
        fun _ _ => leave_settles⟩)

theorem putVnode_owing : Owing putVnode { deleting := 1 } := by
  refine settles_bind.2 (settles_one.2 ⟨Nat.one_pos, fun _ _ => settles_bind.2 (settles_one.2 ⟨Nat.one_pos, fun old _ => ?_⟩)⟩)
  exact settles_bind.2 (release_settles (g := { closing := 1 }) old (settles_one.2
    ⟨⟨Nat.one_pos, ⟨Nat.le_refl _, Nat.le_refl _, fun _ => rfl⟩⟩, fun _ _ => ⟨rfl, rfl, rfl, rfl, rfl, rfl, rfl, rfl, rfl⟩⟩))

end HostfsFile
end Prose
