import Mathlib.Algebra.GroupWithZero.Nat
import Prose.HandlesSound
/-!
# HandlesRuns — every handle is released once

What each section does to the node's handles, then the invariant, step by step, and over every run.
-/
namespace Prose
namespace HostfsFile

open Tasks

/-! ## The sections under the lock -/

namespace Node

def handles (n : Node) : Multiset Handle := (if n.fhMode = .none then 0 else {n.fh}) + (n.staleFh : Multiset Handle)

/-- At most one handle is parked, behind a read-write one that is in use; a node has no handle without a cookie or a use. -/
structure Ok (n : Node) : Prop where
  parked : n.staleFh.length ≤ 1
  behind : n.staleFh ≠ [] → n.fhMode = .rdwr ∧ n.fhUsers ≠ 0
  needed : n.fhMode ≠ .none → n.opens ≠ 0 ∨ n.fhUsers ≠ 0

variable {n n' : Node} {fh : Handle} {old : Option Handle}

theorem Ok.stale_of_unused (h : n.Ok) (hu : n.fhUsers = 0) : n.staleFh = [] := by
  by_contra hs
  exact (h.behind hs).2 hu

theorem openMode_of_write {m : Mount} {first second : Opened} {mode : Mode} (hw : m.readOnly = false)
    (h : openMode m true first second = some mode) : mode = .rdwr := by
  unfold openMode retries at h
  rw [hw] at h
  split at h
  · exact (Option.some.inj h).symm
  · exact nomatch h

theorem openMode_ne_none {m : Mount} {write : Bool} {first second : Opened} {mode : Mode}
    (h : openMode m write first second = some mode) : mode ≠ .none := by
  unfold openMode at h
  split at h
  · cases h
    split <;> exact nofun
  split at h
  · cases h
    exact nofun
  · exact nomatch h

/-- **`node_get_fh`**: a handle the node has, and what was there before stays while it is used. -/
structure Got (n n' : Node) (fh : Handle) (old : Option Handle) (opened : Multiset Handle) : Prop where
  handles : n'.handles + single old = opened + n.handles
  mem : fh ∈ n'.handles
  kept : n.fhUsers ≠ 0 → ∀ x ∈ n.handles, x ∈ n'.handles
  users : n'.fhUsers = n.fhUsers + 1
  opens : n'.opens = n.opens
  ok : n'.Ok

theorem replace_got {mode : Mode} (h : n.Ok) (hm : mode ≠ .none) (hrw : n.fhMode ≠ .none → n.fhMode = .rdonly ∧ mode = .rdwr) :
    Got n (n.replace fh mode).1 fh (n.replace fh mode).2 {fh} := by
  have hstale : n.staleFh = [] := by
    by_contra hs
    have hb := (h.behind hs).1
    have := (hrw (by rw [hb]; exact nofun)).1
    rw [hb] at this
    exact nomatch this
  unfold replace
  by_cases hn : n.fhMode = .none
  · rw [if_pos hn]
    refine ⟨?_, ?_, fun _ x hx => ?_, rfl, rfl, ⟨h.parked, fun hs => absurd hstale hs, fun _ => .inr (Nat.succ_ne_zero _)⟩⟩
    · simp [handles, single, hm, hn]
    · simp [handles, hm]
    · simp [handles, hn, hstale] at hx
  obtain ⟨hro, rfl⟩ := hrw hn
  rw [if_neg hn]
  by_cases hu : n.fhUsers = 0
  · rw [if_pos (.inl hu)]
    refine ⟨?_, ?_, fun h' => absurd hu h', rfl, rfl, ⟨h.parked, fun hs => absurd hstale hs, fun _ => .inr (Nat.succ_ne_zero _)⟩⟩
    · simp [handles, single, hn, hstale]
    · simp [handles]
  rw [if_neg (by rw [hstale]; simp [hu, staleCount])]
  refine ⟨?_, ?_, fun _ x hx => ?_, rfl, rfl, ⟨?_, fun _ => ⟨rfl, Nat.succ_ne_zero _⟩, fun _ => .inr (Nat.succ_ne_zero _)⟩⟩
  · simp [handles, single, hn, hstale]
  · simp [handles]
  · simp only [handles, hn, if_false, hstale] at hx
    simp [handles, hstale] at hx ⊢
    exact .inr hx
  · simp [hstale]

theorem getFh_got {m : Mount} {write opened : Bool} {first second : Opened} {fresh : Handle} (h : n.Ok)
    (hg : n.getFh m write first second fresh = some (n', fh, old, opened)) :
    Got n n' fh old (if opened then {fh} else 0) ∧ (opened = true → fh = fresh) := by
  unfold getFh at hg
  by_cases hhave : n.fhMode = .rdwr ∨ n.fhMode = .rdonly ∧ write = false
  · rw [if_pos hhave] at hg
    obtain ⟨rfl, rfl, rfl, rfl⟩ := by simpa using hg
    have hn : n.fhMode ≠ .none := by rcases hhave with hm | ⟨hm, -⟩ <;> (rw [hm]; exact nofun)
    refine ⟨⟨?_, ?_, fun _ x hx => hx, rfl, rfl, ⟨h.parked, fun hs => ⟨(h.behind hs).1, Nat.succ_ne_zero _⟩,
      fun _ => .inr (Nat.succ_ne_zero _)⟩⟩, nofun⟩
    · simp [handles, single]
    · simp [handles, hn]
  · rw [if_neg hhave] at hg
    rw [not_or, not_and] at hhave
    split at hg
    · exact nomatch hg
    rename_i hro
    obtain ⟨mode, hmode, hg⟩ := Option.map_eq_some_iff.1 hg
    obtain ⟨rfl, rfl, rfl, rfl⟩ := by simpa using hg
    refine ⟨replace_got h (openMode_ne_none hmode) fun hn => ?_, fun _ => rfl⟩
    have hm : n.fhMode = .rdonly := by
      cases hc : n.fhMode with
      | none => exact absurd hc hn
      | rdonly => rfl
      | rdwr => exact absurd hc hhave.1
    have hw : write = true := by
      cases write with
      | true => rfl
      | false => exact absurd rfl (hhave.2 hm)
    rw [hw] at hmode
    exact ⟨hm, openMode_of_write (by simpa [hw] using hro) hmode⟩

/-- **A section that gives handles up**: they are still the node's or to be released, and those in use are the node's. -/
structure Gave (n n' : Node) (old : Multiset Handle) : Prop where
  handles : n'.handles + old = n.handles
  kept : n'.fhUsers ≠ 0 → n'.handles = n.handles
  ok : n'.Ok

theorem handles_of_stale (hs : n.staleFh = []) (hm : n.fhMode ≠ .none) : n.handles = {n.fh} := by
  simp [handles, hs, hm]

theorem handles_of_none (hs : n.staleFh = []) (hm : n.fhMode = .none) : n.handles = 0 := by
  simp [handles, hs, hm]

theorem putFh_users : (n.putFh).1.fhUsers = n.fhUsers - 1 := by
  unfold putFh
  dsimp only
  split_ifs <;> rfl

theorem putFh_opens : (n.putFh).1.opens = n.opens := by
  unfold putFh
  dsimp only
  split_ifs <;> rfl

theorem putFh_gave (h : n.Ok) : Gave n n.putFh.1 n.putFh.2 := by
  unfold putFh
  dsimp only
  split_ifs with hu hlast
  · refine ⟨?_, fun hne => absurd hu hne, ⟨Nat.zero_le _, fun hs => absurd rfl hs, fun hm => absurd rfl hm⟩⟩
    rw [handles_of_none rfl rfl]
    simp only [handles, hlast.2, if_false, zero_add]
    rw [← Multiset.coe_add, Multiset.coe_singleton, add_comm]
  · refine ⟨?_, fun hne => absurd hu hne, ⟨Nat.zero_le _, fun hs => absurd rfl hs, fun hm => .inl fun ho => hlast ⟨ho, hm⟩⟩⟩
    simp [handles]
  · exact ⟨by simp [handles], fun _ => rfl, ⟨h.parked, fun hs => ⟨(h.behind hs).1, hu⟩, fun _ => .inr hu⟩⟩

theorem dropOpen_users : (n.dropOpen).1.fhUsers = n.fhUsers := by
  unfold dropOpen
  dsimp only
  split_ifs <;> rfl

theorem dropOpen_opens : (n.dropOpen).1.opens = n.opens - 1 := by
  unfold dropOpen
  dsimp only
  split_ifs <;> rfl

theorem dropOpen_gave (h : n.Ok) : Gave n n.dropOpen.1 (single n.dropOpen.2) := by
  unfold dropOpen
  dsimp only
  split_ifs with hlast
  · have hs := h.stale_of_unused hlast.2.1
    refine ⟨?_, fun hne => absurd hlast.2.1 hne, ⟨h.parked, fun hne => absurd hs hne, fun hm => absurd rfl hm⟩⟩
    rw [handles_of_stale hs hlast.2.2]
    simp [handles, single, hs]
  · refine ⟨by simp [handles, single], fun _ => rfl, ⟨h.parked, h.behind, fun hm => ?_⟩⟩
    by_contra hne
    rw [not_or, not_not, not_not] at hne
    exact hlast ⟨hne.1, hne.2, hm⟩

theorem dropHandle_gave (h : n.Ok) (hu : n.fhUsers = 0) : Gave n n.dropHandle.1 (single n.dropHandle.2) ∧
    n.dropHandle.1.fhUsers = n.fhUsers ∧ n.dropHandle.1.opens = n.opens := by
  have hs := h.stale_of_unused hu
  unfold dropHandle
  split_ifs with hm
  · refine ⟨⟨?_, fun hne => absurd hu hne, ⟨h.parked, fun hne => absurd hs hne, fun hne => absurd rfl hne⟩⟩, rfl, rfl⟩
    rw [handles_of_stale hs hm]
    simp [handles, single, hs]
  · exact ⟨⟨by simp [single], fun _ => rfl, h⟩, rfl, rfl⟩

theorem created_spec (h : n.Ok) (fh : Option Handle) :
    (n.created fh).1.handles = n.handles + (if (n.created fh).2 then 0 else single fh) ∧
    (n.created fh).1.fhUsers = n.fhUsers ∧ (n.created fh).1.opens = n.opens + 1 ∧ (n.created fh).1.Ok := by
  cases fh with
  | none => exact ⟨(add_zero n.handles).symm, rfl, rfl, ⟨h.parked, h.behind, fun _ => .inl (Nat.succ_ne_zero _)⟩⟩
  | some fh =>
    by_cases hm : n.fhMode = .none
    · have hs : n.staleFh = [] := by
        by_contra hs
        have := (h.behind hs).1
        rw [hm] at this
        exact nomatch this
      rw [show n.created (some fh) = ({ n with opens := n.opens + 1, fh, fhMode := .rdwr }, false) from if_pos hm]
      exact ⟨by simp [handles, single, hm, hs], rfl, rfl,
        ⟨h.parked, fun hne => absurd hs hne, fun _ => .inl (Nat.succ_ne_zero _)⟩⟩
    · rw [show n.created (some fh) = ({ n with opens := n.opens + 1 }, true) from if_neg hm]
      exact ⟨by simp [handles], rfl, rfl, ⟨h.parked, h.behind, fun _ => .inl (Nat.succ_ne_zero _)⟩⟩

end Node

/-! ## The invariant -/

structure Counts (s : State) (gs : List Debt) : Prop where
  opens : s.node.opens = s.cookies + (gs.map Debt.opens).sum
  busy : s.busy = (gs.map Debt.vnode).sum
  paging : s.paging = (gs.map Debt.paging).sum
  pending : s.pending = (gs.map Debt.pending).sum
  deleting : (gs.map Debt.deleting).sum = if s.stage = .deleting then 1 else 0
  closing : (gs.map Debt.closing).sum = if s.stage = .closing then 1 else 0
  put : s.stage ≠ .open_ → s.busy = 0 ∧ s.cookies = 0
  closed : s.stage = .closing → s.paging = 0
  private_ : s.published = false → s.busy = 0 ∧ s.paging = 0 ∧ s.cookies = 0 ∧ s.stage = .open_
  dead : s.alive = false → s.published = false ∧ s.pending = 0 ∧ s.node = {}
  wf : ∀ g ∈ gs, g.Wf

/-- What the host has open is the node's, or some thread has to release it; what a thread uses is the node's. -/
structure Held (s : State) (gs : List Debt) : Prop where
  opened : s.opened = s.node.handles + (gs.map Debt.owed).sum + s.brought
  brought : s.brought = (gs.map Debt.brought).sum
  nodup : s.opened.Nodup
  below : ∀ fh ∈ s.opened, fh < s.fresh
  users : s.node.fhUsers = (gs.map fun g => g.uses.card).sum
  uses : ∀ g ∈ gs, ∀ fh ∈ g.uses, fh ∈ s.node.handles
  ok : s.node.Ok

variable {s s' : State} {gs : List Debt} {i : Nat} {g g' : Debt}

theorem Counts.move (h : Counts s gs) (hg : gs[i]? = some g) (hwf : g'.Wf)
    (hopens : s'.node.opens + s.cookies + g.opens = s.node.opens + s'.cookies + g'.opens)
    (hbusy : s'.busy + g.vnode = s.busy + g'.vnode) (hpaging : s'.paging + g.paging = s.paging + g'.paging)
    (hpending : s'.pending + g.pending = s.pending + g'.pending)
    (hdeleting : (if s'.stage = .deleting then 1 else 0) + g.deleting = (if s.stage = .deleting then 1 else 0) + g'.deleting)
    (hclosing : (if s'.stage = .closing then 1 else 0) + g.closing = (if s.stage = .closing then 1 else 0) + g'.closing)
    (hput : s'.stage ≠ .open_ → s'.busy = 0 ∧ s'.cookies = 0) (hclosed : s'.stage = .closing → s'.paging = 0)
    (hprivate : s'.published = false → s'.busy = 0 ∧ s'.paging = 0 ∧ s'.cookies = 0 ∧ s'.stage = .open_)
    (hdead : s'.alive = false → s'.published = false ∧ s'.pending = 0 ∧ s'.node = {}) : Counts s' (gs.set i g') := by
  obtain ⟨o, ho, ho'⟩ := sum_rest Debt.opens hg
  obtain ⟨v, hv, hv'⟩ := sum_rest Debt.vnode hg
  obtain ⟨a, ha, ha'⟩ := sum_rest Debt.paging hg
  obtain ⟨p, hp, hp'⟩ := sum_rest Debt.pending hg
  obtain ⟨d, hd, hd'⟩ := sum_rest Debt.deleting hg
  obtain ⟨c, hc, hc'⟩ := sum_rest Debt.closing hg
  have h1 := h.opens
  have h2 := h.busy
  have h3 := h.pending
  have h4 := h.deleting
  have h5 := h.closing
  have h6 := h.paging
  refine ⟨?_, ?_, ?_, ?_, ?_, ?_, hput, hclosed, hprivate, hdead, fun x hx => ?_⟩
  · rw [ho' g']
    omega
  · rw [hv' g']
    omega
  · rw [ha' g']
    omega
  · rw [hp' g']
    omega
  · rw [hd' g']
    omega
  · rw [hc' g']
    omega
  · rcases List.mem_or_eq_of_mem_set hx with hx | rfl
    · exact h.wf x hx
    · exact hwf

theorem Counts.same (h : Counts s gs) (hg : gs[i]? = some g) (hwf : g'.Wf) (hn : s'.node.opens = s.node.opens)
    (hs : s'.cookies = s.cookies ∧ s'.busy = s.busy ∧ s'.pending = s.pending ∧ s'.stage = s.stage ∧
      s'.published = s.published ∧ s'.alive = s.alive ∧ s'.paging = s.paging)
    (hg' : g'.opens = g.opens ∧ g'.vnode = g.vnode ∧ g'.pending = g.pending ∧ g'.deleting = g.deleting ∧
      g'.closing = g.closing ∧ g'.paging = g.paging)
    (hdead : s.alive = false → s'.node = {}) : Counts s' (gs.set i g') := by
  obtain ⟨h1, h2, h3, h4, h5, h6, h7⟩ := hs
  obtain ⟨k1, k2, k3, k4, k5, k6⟩ := hg'
  refine h.move hg hwf (by rw [hn, h1, k1]) (by rw [h2, k2]) (by rw [h7, k6]) (by rw [h3, k3]) (by rw [h4, k4])
    (by rw [h4, k5]) ?_ ?_ ?_ ?_
  · rw [h4, h2, h1]
    exact h.put
  · rw [h4, h7]
    exact h.closed
  · rw [h5, h2, h7, h1, h4]
    exact h.private_
  · rw [h6, h5, h3]
    exact fun ha => ⟨(h.dead ha).1, (h.dead ha).2.1, hdead ha⟩

theorem Held.move (h : Held s gs) (hg : gs[i]? = some g)
    (hopened : ∀ rest, s.opened = s.node.handles + (g.owed + rest) + s.brought →
      s'.opened = s'.node.handles + (g'.owed + rest) + s'.brought)
    (hbrought : ∀ rest, s.brought = g.brought + rest → s'.brought = g'.brought + rest) (hnodup : s'.opened.Nodup)
    (hbelow : ∀ fh ∈ s'.opened, fh < s'.fresh) (husers : s'.node.fhUsers + g.uses.card = s.node.fhUsers + g'.uses.card)
    (huses : ∀ fh ∈ g'.uses, fh ∈ s'.node.handles)
    (hkept : s.node.fhUsers ≠ 0 → s'.node.fhUsers ≠ 0 → ∀ fh ∈ s.node.handles, fh ∈ s'.node.handles) (hok : s'.node.Ok) :
    Held s' (gs.set i g') := by
  obtain ⟨o, ho, ho'⟩ := sum_rest Debt.owed hg
  obtain ⟨b, hb, hb'⟩ := sum_rest Debt.brought hg
  obtain ⟨u, hu, hu'⟩ := sum_rest (fun g : Debt => g.uses.card) hg
  have hsum : s'.node.fhUsers = ((gs.set i g').map fun g => g.uses.card).sum := by
    rw [hu' g']
    have := h.users
    omega
  have hne {l : List Debt} {d : Debt} (hd : d ∈ l) {fh : Handle} (hfh : fh ∈ d.uses) : (l.map fun g => g.uses.card).sum ≠ 0 := by
    intro hz
    have := (List.sum_eq_zero_iff_forall_eq_nat.1 hz) _ (List.mem_map_of_mem (f := fun g : Debt => g.uses.card) hd)
    rw [Multiset.card_eq_zero.1 this] at hfh
    exact Multiset.notMem_zero fh hfh
  refine ⟨?_, ?_, hnodup, hbelow, hsum, fun d hd fh hfh => ?_, hok⟩
  · rw [ho' g']
    exact hopened o (by rw [← ho]; exact h.opened)
  · rw [hb' g']
    exact hbrought b (by rw [← hb]; exact h.brought)
  · rcases List.mem_or_eq_of_mem_set hd with hd' | rfl
    · refine hkept ?_ ?_ fh (h.uses d hd' fh hfh)
      · rw [h.users]
        exact hne hd' hfh
      · rw [hsum]
        exact hne hd hfh
    · exact huses fh hfh

theorem Held.same (h : Held s gs) (hg : gs[i]? = some g) (hg' : g'.uses = g.uses ∧ g'.owed = g.owed ∧ g'.brought = g.brought)
    (hs : s'.opened = s.opened ∧ s'.brought = s.brought ∧ s'.fresh = s.fresh)
    (hn : s'.node.handles = s.node.handles ∧ s'.node.fhUsers = s.node.fhUsers) (hok : s'.node.Ok) : Held s' (gs.set i g') := by
  obtain ⟨h1, h2, h3⟩ := hs
  obtain ⟨k1, k2, k3⟩ := hg'
  obtain ⟨n1, n2⟩ := hn
  refine h.move hg ?_ ?_ (h1 ▸ h.nodup) (by rw [h1, h3]; exact h.below) (by rw [n2, k1]) ?_ ?_ hok
  · rw [h1, h2, n1, k2]
    exact fun _ hr => hr
  · rw [h2, k3]
    exact fun _ hr => hr
  · rw [k1, n1]
    exact h.uses g (List.mem_of_getElem? hg)
  · rw [n1]
    exact fun _ _ _ hfh => hfh

structure Sound (s : State) (gs : List Debt) : Prop where
  counts : Counts s gs
  held : Held s gs

/-! ## Every action keeps it -/

theorem owed_le (h : Held s gs) (hg : gs[i]? = some g) : g.owed ≤ s.opened := by
  obtain ⟨o, ho, -⟩ := sum_rest Debt.owed hg
  rw [h.opened, ho]
  exact (Multiset.le_add_right _ _).trans ((Multiset.le_add_left _ _).trans (Multiset.le_add_right _ _))

theorem brought_le (h : Held s gs) (hg : gs[i]? = some g) : g.brought ≤ s.brought := by
  obtain ⟨b, hb, -⟩ := sum_rest Debt.brought hg
  rw [h.brought, hb]
  exact Multiset.le_add_right _ _

theorem brought_opened (h : Held s gs) : s.brought ≤ s.opened := by
  rw [h.opened]
  exact Multiset.le_add_left _ _

theorem handles_opened (h : Held s gs) : s.node.handles ≤ s.opened := by
  rw [h.opened, add_assoc]
  exact Multiset.le_add_right _ _

theorem alive_of_share (h : Counts s gs) (hg : gs[i]? = some g) (hs : g.vnode + g.paging + g.pending + g.deleting + g.closing ≠ 0) :
    s.alive = true := by
  by_contra hd
  have hd : s.alive = false := by simpa using hd
  obtain ⟨hp, hz, -⟩ := h.dead hd
  obtain ⟨hb, ha, -, hst⟩ := h.private_ hp
  obtain ⟨v, hv, -⟩ := sum_rest Debt.vnode hg
  obtain ⟨a, hpg, -⟩ := sum_rest Debt.paging hg
  obtain ⟨p, hpd, -⟩ := sum_rest Debt.pending hg
  obtain ⟨d, hdl, -⟩ := sum_rest Debt.deleting hg
  obtain ⟨c, hc, -⟩ := sum_rest Debt.closing hg
  have h2 := h.busy
  have h3 := h.pending
  have h4 := h.deleting
  have h5 := h.closing
  have h6 := h.paging
  rw [hst] at h4 h5
  simp only [reduceCtorEq, if_false] at h4 h5
  omega

/-- **Under the lock, handles go over to the thread that releases them.** -/
theorem gave_sound (h : Sound s gs) (hg : gs[i]? = some g) {n : Node} {old : Multiset Handle} (hgave : Node.Gave s.node n old)
    (hwf : g'.Wf) (huses : g'.uses = g.uses ∧ n.fhUsers = s.node.fhUsers ∨
      g'.uses = 0 ∧ n.fhUsers = s.node.fhUsers - g.uses.card)
    (hopens : n.opens + g.opens = s.node.opens + g'.opens) (howed : g'.owed = g.owed + old) (hbrought : g'.brought = g.brought)
    (hrest : g'.vnode = g.vnode ∧ g'.paging = g.paging ∧ g'.pending = g.pending ∧ g'.deleting = g.deleting ∧
      g'.closing = g.closing)
    (halive : s.alive = true) : Sound { s with node := n } (gs.set i g') := by
  obtain ⟨k1, k5, k2, k3, k4⟩ := hrest
  obtain ⟨u, hu, -⟩ := sum_rest (fun g : Debt => g.uses.card) hg
  have husers := h.held.users
  refine ⟨h.counts.move hg hwf ?_ (by rw [k1]) (by rw [k5]) (by rw [k2]) (by rw [k3]) (by rw [k4]) h.counts.put h.counts.closed
    h.counts.private_ (fun hd => by rw [halive] at hd; exact nomatch hd), h.held.move hg ?_ ?_ h.held.nodup h.held.below ?_ ?_ ?_
      hgave.ok⟩
  · show n.opens + s.cookies + g.opens = s.node.opens + s.cookies + g'.opens
    omega
  · intro rest hr
    show s.opened = n.handles + (g'.owed + rest) + s.brought
    rw [hr, howed, ← hgave.handles]
    ac_rfl
  · rw [hbrought]
    exact fun _ hr => hr
  · show n.fhUsers + g.uses.card = s.node.fhUsers + g'.uses.card
    rcases huses with ⟨hu1, hu2⟩ | ⟨hu1, hu2⟩
    · rw [hu1, hu2]
    · rw [hu1, hu2, Multiset.card_zero]
      omega
  · rcases huses with ⟨hu1, hu2⟩ | ⟨hu1, -⟩
    · rw [hu1]
      intro fh hfh
      have hne : n.fhUsers ≠ 0 := by
        have := Multiset.card_pos_iff_exists_mem.2 ⟨fh, hfh⟩
        omega
      show fh ∈ n.handles
      rw [hgave.kept hne]
      exact h.held.uses g (List.mem_of_getElem? hg) fh hfh
    · rw [hu1]
      exact fun fh hfh => absurd hfh (Multiset.notMem_zero fh)
  · intro _ hne fh hfh
    show fh ∈ n.handles
    rw [hgave.kept hne]
    exact hfh

theorem users_of_mem (h : Held s gs) (hg : gs[i]? = some g) {fh : Handle} (hfh : fh ∈ g.uses) : s.node.fhUsers ≠ 0 := by
  obtain ⟨u, hu, -⟩ := sum_rest (fun g : Debt => g.uses.card) hg
  have := Multiset.card_pos_iff_exists_mem.2 ⟨fh, hfh⟩
  have := h.users
  omega

/-- **Under the lock, a thread gets a handle**, which may have just been opened. -/
theorem got_sound (h : Sound s gs) (hg : gs[i]? = some g) {n : Node} {fh fresh : Handle} {old : Option Handle}
    {new opened : Multiset Handle} (hgot : Node.Got s.node n fh old new) (hopened : opened = new + s.opened)
    (hnodup : opened.Nodup) (hbelow : ∀ x ∈ opened, x < fresh) (halive : s.alive = true)
    (hwf : Debt.Wf { g with uses := fh ::ₘ g.uses, owed := g.owed + single old }) :
    Sound { s with node := n, opened, fresh } (gs.set i { g with uses := fh ::ₘ g.uses, owed := g.owed + single old }) := by
  refine ⟨h.counts.same hg hwf hgot.opens ⟨rfl, rfl, rfl, rfl, rfl, rfl, rfl⟩ ⟨rfl, rfl, rfl, rfl, rfl, rfl⟩
    (fun hd => by rw [halive] at hd; exact nomatch hd), h.held.move hg ?_ (fun _ hr => hr) hnodup hbelow ?_ ?_ ?_ hgot.ok⟩
  · intro rest hrest
    show opened = n.handles + (g.owed + single old + rest) + s.brought
    rw [hopened, hrest, show n.handles + (g.owed + single old + rest) + s.brought =
      (n.handles + single old) + (g.owed + rest) + s.brought by ac_rfl, hgot.handles]
    ac_rfl
  · show n.fhUsers + g.uses.card = s.node.fhUsers + (fh ::ₘ g.uses).card
    rw [hgot.users, Multiset.card_cons]
    omega
  · intro x hx
    rcases Multiset.mem_cons.1 hx with rfl | hx
    · exact hgot.mem
    · exact hgot.kept (users_of_mem h.held hg hx) x (h.held.uses g (List.mem_of_getElem? hg) x hx)
  · exact fun hne _ => hgot.kept hne

theorem same_sound (h : Sound s gs) (hg : gs[i]? = some g) : Sound s (gs.set i g) := by
  obtain ⟨hi, rfl⟩ := List.getElem?_eq_some_iff.1 hg
  rw [List.set_getElem_self]
  exact h

theorem getFh_sound {m : Mount} {c : Choice} {write : Bool} {r : Answer (.getFh write)} (h : Sound s gs)
    (hg : gs[i]? = some g) (hr : ready (.getFh write) g) (hs : s.perform m c (.getFh write) = some (s', r)) :
    Sound s' (gs.set i (after (.getFh write) r g)) := by
  have hwf := (h.counts.wf g (List.mem_of_getElem? hg)).after hr r
  have halive : s.alive = true := alive_of_share h.counts hg (by
    have : g.uses.card < g.vnode + g.paging := hr
    omega)
  unfold State.perform at hs
  dsimp only at hs
  split at hs
  · cases hs
    exact same_sound h hg
  · next n fh old hget =>
    cases hs
    obtain ⟨hgot, hfresh⟩ := Node.getFh_got h.held.ok hget
    obtain rfl := hfresh rfl
    refine got_sound h hg hgot (Multiset.singleton_add ..).symm
      (Multiset.nodup_cons.2 ⟨fun hm => Nat.lt_irrefl _ (h.held.below _ hm), h.held.nodup⟩) (fun x hx => ?_) halive hwf
    rcases Multiset.mem_cons.1 hx with rfl | hx
    · exact Nat.lt_succ_self _
    · exact Nat.lt_succ_of_lt (h.held.below x hx)
  · next n fh old hget =>
    cases hs
    exact got_sound h hg (Node.getFh_got h.held.ok hget).1 (zero_add _).symm h.held.nodup h.held.below halive hwf

theorem putFh_sound (h : Sound s gs) (hg : gs[i]? = some g) (hr : ready .putFh g) :
    Sound { s with node := s.node.putFh.1 } (gs.set i (after .putFh s.node.putFh.2 g)) := by
  have hwf := h.counts.wf g (List.mem_of_getElem? hg)
  have hr' : g.uses.card = 1 := hr
  refine gave_sound h hg (Node.putFh_gave h.held.ok) (hwf.after hr _) (.inr ⟨rfl, ?_⟩) ?_ rfl rfl ⟨rfl, rfl, rfl, rfl, rfl⟩
    (alive_of_share h.counts hg (by have := hwf.uses; omega))
  · rw [Node.putFh_users, hr']
  · rw [Node.putFh_opens]
    rfl

theorem dropOpen_sound (h : Sound s gs) (hg : gs[i]? = some g) (hr : ready .dropOpen g) :
    Sound { s with node := s.node.dropOpen.1 } (gs.set i (after .dropOpen s.node.dropOpen.2 g)) := by
  have hwf := h.counts.wf g (List.mem_of_getElem? hg)
  have hr' : 0 < g.opens := hr
  refine gave_sound h hg (Node.dropOpen_gave h.held.ok) (hwf.after hr _) (.inl ⟨rfl, Node.dropOpen_users⟩) ?_ rfl rfl
    ⟨rfl, rfl, rfl, rfl, rfl⟩ (alive_of_share h.counts hg (by have := hwf.opens; omega))
  obtain ⟨o, ho, -⟩ := sum_rest Debt.opens hg
  have := h.counts.opens
  rw [Node.dropOpen_opens]
  show s.node.opens - 1 + g.opens = s.node.opens + (g.opens - 1)
  omega

theorem unused (h : Sound s gs) (hb : s.busy = 0) (hp : s.paging = 0) : s.node.fhUsers = 0 := by
  rw [h.held.users, List.sum_eq_zero_iff_forall_eq_nat]
  intro u hu
  obtain ⟨d, hd, rfl⟩ := List.mem_map.1 hu
  have hv := List.sum_eq_zero_iff_forall_eq_nat.1 (h.counts.busy.symm.trans hb) _ (List.mem_map_of_mem hd)
  have ha := List.sum_eq_zero_iff_forall_eq_nat.1 (h.counts.paging.symm.trans hp) _ (List.mem_map_of_mem hd)
  have := (h.counts.wf d hd).uses
  omega

theorem stage_of_deleting (h : Counts s gs) (hg : gs[i]? = some g) (hd : 0 < g.deleting) : s.stage = .deleting := by
  by_contra hne
  obtain ⟨d, hds, -⟩ := sum_rest Debt.deleting hg
  have := h.deleting
  rw [if_neg hne] at this
  omega

theorem stage_of_closing (h : Counts s gs) (hg : gs[i]? = some g) (hd : 0 < g.closing) : s.stage = .closing := by
  by_contra hne
  obtain ⟨c, hcs, -⟩ := sum_rest Debt.closing hg
  have := h.closing
  rw [if_neg hne] at this
  omega

theorem dropHandle_sound (h : Sound s gs) (hg : gs[i]? = some g) (hr : ready .dropHandle g) :
    Sound { s with node := s.node.dropHandle.1 } (gs.set i (after .dropHandle s.node.dropHandle.2 g)) := by
  have hwf := h.counts.wf g (List.mem_of_getElem? hg)
  have hr' : 0 < g.closing := hr
  have hclosing := stage_of_closing h.counts hg hr'
  obtain ⟨hgave, husers, hopens⟩ := Node.dropHandle_gave h.held.ok (unused h (h.counts.put (by rw [hclosing]; exact nofun)).1
    (h.counts.closed hclosing))
  refine gave_sound h hg hgave (hwf.after hr _) (.inl ⟨rfl, husers⟩) ?_ rfl rfl ⟨rfl, rfl, rfl, rfl, rfl⟩
    (alive_of_share h.counts hg (by omega))
  rw [hopens]
  rfl

theorem addOpen_sound (h : Sound s gs) (hg : gs[i]? = some g) (hr : ready .addOpen g) :
    Sound { s with node := { s.node with opens := s.node.opens + 1 } } (gs.set i (after .addOpen () g)) := by
  have hwf := h.counts.wf g (List.mem_of_getElem? hg)
  have hr' : g.opens < g.vnode + g.pending := hr
  have halive : s.alive = true := alive_of_share h.counts hg (by omega)
  refine ⟨h.counts.move hg (hwf.after hr _) ?_ rfl rfl rfl rfl rfl h.counts.put h.counts.closed h.counts.private_
    (fun hd => by rw [halive] at hd; exact nomatch hd), h.held.same hg ⟨rfl, rfl, rfl⟩ ⟨rfl, rfl, rfl⟩ ⟨rfl, rfl⟩
    ⟨h.held.ok.parked, h.held.ok.behind, fun _ => .inl (Nat.succ_ne_zero _)⟩⟩
  show s.node.opens + 1 + s.cookies + g.opens = s.node.opens + s.cookies + (g.opens + 1)
  omega

theorem created_sound {fh : Option Handle} (h : Sound s gs) (hg : gs[i]? = some g) (hr : ready (.created fh) g) :
    Sound { s with
      node := (s.node.created fh).1
      brought := if (s.node.created fh).2 then s.brought else s.brought - single fh }
      (gs.set i (after (.created fh) (s.node.created fh).2 g)) := by
  have hwf := h.counts.wf g (List.mem_of_getElem? hg)
  obtain ⟨hlt, hle⟩ := hr
  have halive : s.alive = true := alive_of_share h.counts hg (by omega)
  obtain ⟨hhandles, husers, hopens, hok⟩ := Node.created_spec h.held.ok fh
  refine ⟨h.counts.move hg (hwf.after (a := .created fh) ⟨hlt, hle⟩ _) ?_ rfl rfl rfl rfl rfl h.counts.put h.counts.closed h.counts.private_
    (fun hd => by rw [halive] at hd; exact nomatch hd), h.held.move hg ?_ ?_ h.held.nodup h.held.below ?_ ?_ ?_ hok⟩
  · show (s.node.created fh).1.opens + s.cookies + g.opens = s.node.opens + s.cookies + (g.opens + 1)
    omega
  · intro rest hrest
    show s.opened = (s.node.created fh).1.handles + (g.owed + rest) + ite _ _ _
    rw [hhandles]
    cases (s.node.created fh).2 with
    | true => rw [if_pos rfl, if_pos rfl, add_zero, hrest]
    | false =>
      rw [if_neg Bool.false_ne_true, if_neg Bool.false_ne_true, hrest]
      have hsub := Multiset.add_sub_cancel (hle.trans (brought_le h.held hg))
      rw [show s.node.handles + single fh + (g.owed + rest) + (s.brought - single fh) =
        s.node.handles + (g.owed + rest) + (s.brought - single fh + single fh) by ac_rfl, hsub]
  · intro rest hrest
    show ite _ _ _ = ite _ _ _ + rest
    cases (s.node.created fh).2 with
    | true => rw [if_pos rfl, if_pos rfl, hrest]
    | false =>
      rw [if_neg Bool.false_ne_true, if_neg Bool.false_ne_true, hrest, add_comm, Multiset.add_sub_assoc hle, add_comm]
  · rw [husers]
    rfl
  · intro x hx
    rw [hhandles]
    exact Multiset.mem_add.2 (.inl (h.held.uses g (List.mem_of_getElem? hg) x hx))
  · intro _ _ x hx
    rw [hhandles]
    exact Multiset.mem_add.2 (.inl hx)

theorem nodup_erase (h : Held s gs) (fh : Handle) : (s.opened.erase fh).Nodup ∧ ∀ x ∈ s.opened.erase fh, x < s.fresh :=
  ⟨h.nodup.erase fh, fun x hx => h.below x (Multiset.mem_of_mem_erase hx)⟩

theorem release_sound {fh : Handle} (h : Sound s gs) (hg : gs[i]? = some g) (hr : ready (.release fh) g) :
    Sound { s with opened := s.opened.erase fh } (gs.set i (after (.release fh) () g)) := by
  have hwf := h.counts.wf g (List.mem_of_getElem? hg)
  obtain ⟨hnodup, hbelow⟩ := nodup_erase h.held fh
  refine ⟨h.counts.same hg (hwf.after hr _) rfl ⟨rfl, rfl, rfl, rfl, rfl, rfl, rfl⟩ ⟨rfl, rfl, rfl, rfl, rfl, rfl⟩
    (fun hd => (h.counts.dead hd).2.2), h.held.move hg ?_ (fun _ hr => hr) hnodup hbelow rfl
      (h.held.uses g (List.mem_of_getElem? hg)) (fun _ _ _ hx => hx) h.held.ok⟩
  intro rest hrest
  obtain ⟨t, ht⟩ := Multiset.exists_cons_of_mem (show fh ∈ g.owed from hr)
  show s.opened.erase fh = s.node.handles + (g.owed.erase fh + rest) + s.brought
  rw [hrest, ht, Multiset.erase_cons_head, Multiset.cons_add, Multiset.add_cons, Multiset.cons_add,
    Multiset.erase_cons_head]

theorem giveBack_sound {fh : Handle} (h : Sound s gs) (hg : gs[i]? = some g) (hr : ready (.giveBack fh) g) :
    Sound { s with opened := s.opened.erase fh, brought := s.brought.erase fh } (gs.set i (after (.giveBack fh) () g)) := by
  have hwf := h.counts.wf g (List.mem_of_getElem? hg)
  obtain ⟨hnodup, hbelow⟩ := nodup_erase h.held fh
  have hr' : fh ∈ g.brought := hr
  obtain ⟨t, ht⟩ := Multiset.exists_cons_of_mem hr'
  obtain ⟨u, hu⟩ := Multiset.exists_cons_of_mem (Multiset.mem_of_le (brought_le h.held hg) hr')
  refine ⟨h.counts.same hg (hwf.after hr _) rfl ⟨rfl, rfl, rfl, rfl, rfl, rfl, rfl⟩ ⟨rfl, rfl, rfl, rfl, rfl, rfl⟩
    (fun hd => (h.counts.dead hd).2.2), h.held.move hg ?_ ?_ hnodup hbelow rfl
      (h.held.uses g (List.mem_of_getElem? hg)) (fun _ _ _ hx => hx) h.held.ok⟩
  · intro rest hrest
    show s.opened.erase fh = s.node.handles + (g.owed + rest) + s.brought.erase fh
    rw [hrest, hu, Multiset.erase_cons_head, Multiset.add_cons, Multiset.erase_cons_head]
  · intro rest hrest
    show s.brought.erase fh = g.brought.erase fh + rest
    rw [hrest, ht, Multiset.erase_cons_head, Multiset.cons_add, Multiset.erase_cons_head]

theorem made_sound (h : Sound s gs) (hg : gs[i]? = some g) :
    Sound { s with opened := s.fresh ::ₘ s.opened, brought := s.fresh ::ₘ s.brought, fresh := s.fresh + 1 }
      (gs.set i (after .fuseCreate (.made s.fresh) g)) := by
  have hwf := h.counts.wf g (List.mem_of_getElem? hg)
  refine ⟨h.counts.same hg (hwf.after (a := .fuseCreate) trivial (.made s.fresh)) rfl ⟨rfl, rfl, rfl, rfl, rfl, rfl, rfl⟩
    ⟨rfl, rfl, rfl, rfl, rfl, rfl⟩ (fun hd => (h.counts.dead hd).2.2), h.held.move hg ?_ ?_
      (Multiset.nodup_cons.2 ⟨fun hm => Nat.lt_irrefl _ (h.held.below _ hm), h.held.nodup⟩) ?_ rfl
      (h.held.uses g (List.mem_of_getElem? hg)) (fun _ _ _ hx => hx) h.held.ok⟩
  · intro rest hrest
    show s.fresh ::ₘ s.opened = s.node.handles + (g.owed + rest) + s.fresh ::ₘ s.brought
    rw [hrest, Multiset.add_cons]
  · intro rest hrest
    show s.fresh ::ₘ s.brought = (s.fresh ::ₘ g.brought) + rest
    rw [hrest, Multiset.cons_add]
  · intro x hx
    rcases Multiset.mem_cons.1 hx with rfl | hx
    · exact Nat.lt_succ_self _
    · exact Nat.lt_succ_of_lt (h.held.below x hx)

theorem held_same (h : Sound s gs) (hg : gs[i]? = some g) (hg' : g'.uses = g.uses ∧ g'.owed = g.owed ∧ g'.brought = g.brought)
    (hs : s'.opened = s.opened ∧ s'.brought = s.brought ∧ s'.fresh = s.fresh) (hn : s'.node = s.node) :
    Held s' (gs.set i g') :=
  h.held.same hg hg' hs ⟨by rw [hn], by rw [hn]⟩ (hn ▸ h.held.ok)

theorem acquireEntry_sound (h : Sound s gs) (hg : gs[i]? = some g) :
    Sound { s with node := if s.alive then s.node else {}, alive := true, pending := s.pending + 1 }
      (gs.set i (after .acquireEntry true g)) := by
  have hwf := h.counts.wf g (List.mem_of_getElem? hg)
  have hn : (if s.alive then s.node else {}) = s.node := by
    split
    · rfl
    · next hd => exact (h.counts.dead (by simpa using hd)).2.2.symm
  rw [hn]
  refine ⟨h.counts.move hg (hwf.after (a := .acquireEntry) trivial true) rfl rfl rfl ?_ rfl rfl h.counts.put h.counts.closed
    h.counts.private_ (fun hd => nomatch hd), held_same h hg ⟨rfl, rfl, rfl⟩ ⟨rfl, rfl, rfl⟩ rfl⟩
  show s.pending + 1 + g.pending = s.pending + (g.pending + 1)
  omega

theorem unpend_sound (h : Sound s gs) (hg : gs[i]? = some g) (hr : ready .unpend g) :
    Sound { s with pending := s.pending - 1 } (gs.set i (after .unpend () g)) := by
  obtain ⟨p, hp, -⟩ := sum_rest Debt.pending hg
  have hpending := h.counts.pending
  have hr1 := hr.1
  have halive : s.alive = true := alive_of_share h.counts hg (by omega)
  refine ⟨h.counts.move hg hr.2 rfl rfl rfl ?_ rfl rfl h.counts.put h.counts.closed
    h.counts.private_ (fun hd => by rw [halive] at hd; exact nomatch hd), held_same h hg ⟨rfl, rfl, rfl⟩ ⟨rfl, rfl, rfl⟩ rfl⟩
  show s.pending - 1 + g.pending = s.pending + (g.pending - 1)
  omega

theorem getVnode_sound (h : Sound s gs) (hg : gs[i]? = some g) (hr : ready .getVnode g) (hst : s.stage = .open_) :
    Sound { s with published := true, busy := s.busy + 1 } (gs.set i (after .getVnode true g)) := by
  have hwf := h.counts.wf g (List.mem_of_getElem? hg)
  have hr' : 0 < g.pending := hr
  have halive : s.alive = true := alive_of_share h.counts hg (by omega)
  refine ⟨h.counts.move hg (hwf.after hr true) rfl ?_ rfl rfl rfl rfl (fun hne => absurd hst hne) h.counts.closed
    (fun hp => nomatch hp) (fun hd => by rw [halive] at hd; exact nomatch hd),
    held_same h hg ⟨rfl, rfl, rfl⟩ ⟨rfl, rfl, rfl⟩ rfl⟩
  show s.busy + 1 + g.vnode = s.busy + (g.vnode + 1)
  omega

theorem published_of_vnode (h : Counts s gs) (hg : gs[i]? = some g) (hv : 0 < g.vnode) :
    s.busy ≠ 0 ∧ s.published = true ∧ s.stage = .open_ := by
  obtain ⟨v, hvs, -⟩ := sum_rest Debt.vnode hg
  have hb := h.busy
  refine ⟨by omega, ?_, ?_⟩
  · by_contra hp
    have := (h.private_ (by simpa using hp)).1
    omega
  · by_contra hst
    have := (h.put hst).1
    omega

theorem giveCookie_sound (h : Sound s gs) (hg : gs[i]? = some g) (hr : ready .giveCookie g) :
    Sound { s with cookies := s.cookies + 1 } (gs.set i (after .giveCookie () g)) := by
  have hwf := h.counts.wf g (List.mem_of_getElem? hg)
  have hr' : 0 < g.opens ∧ 0 < g.vnode := hr
  obtain ⟨-, hp, hst⟩ := published_of_vnode h.counts hg hr'.2
  refine ⟨h.counts.move hg (hwf.after hr ()) ?_ rfl rfl rfl rfl rfl (fun hne => absurd hst hne) h.counts.closed
    (fun hp' => by rw [show s.published = false from hp'] at hp; exact nomatch hp) h.counts.dead,
    held_same h hg ⟨rfl, rfl, rfl⟩ ⟨rfl, rfl, rfl⟩ rfl⟩
  show s.node.opens + s.cookies + g.opens = s.node.opens + (s.cookies + 1) + (g.opens - 1)
  omega

theorem leave_sound (h : Sound s gs) (hg : gs[i]? = some g) (hr : ready .leave g) :
    Sound { s with busy := s.busy - 1 } (gs.set i (after .leave () g)) := by
  have hr1 := hr.1
  obtain ⟨-, hp, hst⟩ := published_of_vnode h.counts hg hr1
  obtain ⟨v, hv, -⟩ := sum_rest Debt.vnode hg
  have hb := h.counts.busy
  refine ⟨h.counts.move hg hr.2 rfl ?_ rfl rfl rfl rfl (fun hne => absurd hst hne) h.counts.closed
    (fun hp' => by rw [show s.published = false from hp'] at hp; exact nomatch hp) h.counts.dead,
    held_same h hg ⟨rfl, rfl, rfl⟩ ⟨rfl, rfl, rfl⟩ rfl⟩
  show s.busy - 1 + g.vnode = s.busy + (g.vnode - 1)
  omega

theorem leavePages_sound (h : Sound s gs) (hg : gs[i]? = some g) (hr : ready .leavePages g) :
    Sound { s with paging := s.paging - 1 } (gs.set i (after .leavePages () g)) := by
  have hr1 := hr.1
  obtain ⟨a, ha, -⟩ := sum_rest Debt.paging hg
  have hb := h.counts.paging
  refine ⟨h.counts.move hg hr.2 rfl rfl ?_ rfl rfl rfl h.counts.put (fun hc => ?_) (fun hp => ?_) h.counts.dead,
    held_same h hg ⟨rfl, rfl, rfl⟩ ⟨rfl, rfl, rfl⟩ rfl⟩
  · show s.paging - 1 + g.paging = s.paging + (g.paging - 1)
    omega
  · show s.paging - 1 = 0
    have := h.counts.closed hc
    omega
  · obtain ⟨h1, h2, h3⟩ := h.counts.private_ hp
    exact ⟨h1, by show s.paging - 1 = 0; omega, h3⟩

theorem deleteCache_sound (h : Sound s gs) (hg : gs[i]? = some g) (hr : ready .deleteCache g) (hp : s.paging = 0) :
    Sound { s with stage := .closing } (gs.set i (after .deleteCache () g)) := by
  have hwf := h.counts.wf g (List.mem_of_getElem? hg)
  have hr' : 0 < g.deleting := hr
  have hst := stage_of_deleting h.counts hg hr'
  refine ⟨h.counts.move hg (hwf.after hr ()) rfl rfl rfl rfl ?_ ?_ (fun _ => h.counts.put (by rw [hst]; exact nofun))
    (fun _ => hp) (fun hpub => ?_) h.counts.dead, held_same h hg ⟨rfl, rfl, rfl⟩ ⟨rfl, rfl, rfl⟩ rfl⟩
  · rw [hst]
    show 0 + g.deleting = 1 + (g.deleting - 1)
    omega
  · rw [hst]
    show 1 + g.closing = 0 + (g.closing + 1)
    omega
  · have := (h.counts.private_ hpub).2.2.2
    rw [hst] at this
    exact nomatch this

theorem unpublish_sound (h : Sound s gs) (hg : gs[i]? = some g) (hr : ready .unpublish g) :
    Sound { s with published := false, stage := .open_ } (gs.set i (after .unpublish () g)) := by
  have hr' := hr.1
  have hst := stage_of_closing h.counts hg hr'
  obtain ⟨hb, hc⟩ := h.counts.put (by rw [hst]; exact nofun)
  refine ⟨h.counts.move hg hr.2 rfl rfl rfl rfl ?_ ?_ (fun hne => absurd rfl hne) (fun hne => nomatch hne)
    (fun _ => ⟨hb, h.counts.closed hst, hc, rfl⟩) (fun hd => ⟨rfl, (h.counts.dead hd).2⟩),
    held_same h hg ⟨rfl, rfl, rfl⟩ ⟨rfl, rfl, rfl⟩ rfl⟩
  · rw [hst]
    rfl
  · rw [hst]
    show 0 + g.closing = 1 + (g.closing - 1)
    omega

/-- **An action a thread has the right to keeps the invariant.** -/
theorem perform_sound {m : Mount} {c : Choice} (h : Sound s gs) (hg : gs[i]? = some g) : ∀ {a : Act} {r : Answer a},
    ready a g → s.perform m c a = some (s', r) → Sound s' (gs.set i (after a r g))
  | .getFh _, _, hr, hs => getFh_sound h hg hr hs
  | .putFh, _, hr, hs => by
    cases hs
    exact putFh_sound h hg hr
  | .addOpen, _, hr, hs => by
    cases hs
    exact addOpen_sound h hg hr
  | .dropOpen, _, hr, hs => by
    cases hs
    exact dropOpen_sound h hg hr
  | .dropHandle, _, hr, hs => by
    cases hs
    exact dropHandle_sound h hg hr
  | .created fh, _, hr, hs => by
    cases hs
    rw [show (fh.map ({·})).getD 0 = single fh by cases fh <;> rfl]
    exact created_sound h hg hr
  | .release _, _, hr, hs => by
    cases hs
    exact release_sound h hg hr
  | .giveBack _, _, hr, hs => by
    cases hs
    exact giveBack_sound h hg hr
  | .fuseCreate, _, _, hs => by
    unfold State.perform at hs
    dsimp only at hs
    split at hs
    · cases hs
      exact made_sound h hg
    · cases hs
      split <;> exact same_sound h hg
  | .acquireEntry, _, _, hs => by
    unfold State.perform at hs
    dsimp only at hs
    split at hs
    · cases hs
      exact acquireEntry_sound h hg
    · cases hs
      exact same_sound h hg
  | .unpend, _, hr, hs => by
    cases hs
    exact unpend_sound h hg hr
  | .getVnode, _, hr, hs => by
    unfold State.perform at hs
    dsimp only at hs
    split at hs
    · split at hs
      · cases hs
        exact getVnode_sound h hg hr (by assumption)
      · exact nomatch hs
    · cases hs
      exact same_sound h hg
  | .giveCookie, _, hr, hs => by
    cases hs
    exact giveCookie_sound h hg hr
  | .leave, _, hr, hs => by
    cases hs
    exact leave_sound h hg hr
  | .leavePages, _, hr, hs => by
    cases hs
    exact leavePages_sound h hg hr
  | .deleteCache, _, hr, hs => by
    unfold State.perform at hs
    dsimp only at hs
    split at hs
    · cases hs
      exact deleteCache_sound h hg hr (by assumption)
    · exact nomatch hs
  | .unpublish, _, hr, hs => by
    cases hs
    exact unpublish_sound h hg hr
  | .haveFh, _, _, hs | .size, _, _, hs | .request _ _, _, _, hs | .other, _, _, hs => by
    cases hs
    exact same_sound h hg

theorem perform_threads {m : Mount} {c : Choice} {a : Act} {r : Answer a} (hs : s.perform m c a = some (s', r)) :
    s'.threads = s.threads := by
  unfold State.perform at hs
  cases a <;> dsimp only at hs
  all_goals (repeat' split at hs) <;> first | (obtain ⟨rfl, -⟩ := Prod.mk.inj (Option.some.inj hs); rfl) | exact nomatch hs

/-! ## Every run -/

structure Reach (s : State) (gs : List Debt) : Prop where
  sound : Sound s gs
  owes : Owes ready after (fun _ _ => True) Debt.Clear s.threads gs

theorem Reach.start (h : Reach s gs) {hook : Hook Unit} (hook_owing : Owing hook g') (hwf : g'.Wf)
    (hthreads : s'.threads = s.threads ++ [hook]) (hnode : s'.node = s.node) (hopened : s'.opened = s.opened)
    (hbrought : s'.brought = s.brought) (hfresh : s'.fresh = s.fresh) (hg : g'.uses = 0 ∧ g'.owed = 0 ∧ g'.brought = 0)
    (hopens : s.cookies = s'.cookies + g'.opens) (hbusy : s'.busy = s.busy + g'.vnode) (hpaging : s'.paging = s.paging + g'.paging)
    (hpending : s'.pending = s.pending + g'.pending)
    (hdeleting : (if s'.stage = .deleting then 1 else 0) = (if s.stage = .deleting then 1 else 0) + g'.deleting)
    (hclosing : (if s'.stage = .closing then 1 else 0) = (if s.stage = .closing then 1 else 0) + g'.closing)
    (hput : s'.stage ≠ .open_ → s'.busy = 0 ∧ s'.cookies = 0) (hclosed : s'.stage = .closing → s'.paging = 0)
    (hprivate : s'.published = false → s'.busy = 0 ∧ s'.paging = 0 ∧ s'.cookies = 0 ∧ s'.stage = .open_)
    (hdead : s'.alive = false → s'.published = false ∧ s'.pending = 0 ∧ s'.node = {}) : Reach s' (gs ++ [g']) := by
  obtain ⟨hc, hh⟩ := h.sound
  have h1 := hc.opens
  refine ⟨⟨⟨?_, ?_, ?_, ?_, ?_, ?_, hput, hclosed, hprivate, hdead, fun x hx => ?_⟩, ⟨?_, ?_, ?_, ?_, ?_, fun x hx => ?_, ?_⟩⟩, ?_⟩
  · rw [sum_append, hnode]
    omega
  · rw [sum_append, hbusy, hc.busy]
  · rw [sum_append, hpaging, hc.paging]
  · rw [sum_append, hpending, hc.pending]
  · rw [sum_append, hdeleting, hc.deleting]
  · rw [sum_append, hclosing, hc.closing]
  · rcases List.mem_append.1 hx with hx | hx
    · exact hc.wf x hx
    · rw [List.mem_singleton.1 hx]
      exact hwf
  · rw [sum_append, hnode, hopened, hbrought, hg.2.1, add_zero]
    exact hh.opened
  · rw [sum_append, hbrought, hg.2.2, add_zero]
    exact hh.brought
  · rw [hopened]
    exact hh.nodup
  · rw [hopened, hfresh]
    exact hh.below
  · rw [sum_append, hnode, hg.1, Multiset.card_zero, add_zero]
    exact hh.users
  · rw [hnode]
    rcases List.mem_append.1 hx with hx | hx
    · exact hh.uses x hx
    · rw [List.mem_singleton.1 hx, hg.1]
      exact fun fh hfh => absurd hfh (Multiset.notMem_zero fh)
  · rw [hnode]
    exact hh.ok
  · rw [hthreads]
    exact h.owes.append hook_owing

theorem page_reach {hook : Hook Unit} {may : Bool} (h : Reach s gs) (hook_owing : Owing hook { paging := 1 })
    (hmay : may = true → s.published = true ∧ s.stage ≠ .closing) (hs : s.page hook may = some s') :
    Reach s' (gs ++ [{ paging := 1 }]) := by
  obtain ⟨hm, hs⟩ := Option.ite_none_right_eq_some.1 hs
  cases hs
  obtain ⟨hp, hst⟩ := hmay hm
  obtain ⟨hc, hh⟩ := h.sound
  exact h.start hook_owing ⟨Nat.zero_le _, Nat.zero_le _, fun _ => rfl⟩ rfl rfl rfl rfl rfl ⟨rfl, rfl, rfl⟩ rfl rfl rfl rfl rfl rfl
    hc.put (fun hcl => absurd hcl hst) (fun hpub => by rw [show s.published = false from hpub] at hp; exact nomatch hp) hc.dead

theorem call_reach {hook : Hook Unit} {may : Bool} {o : Nat} (h : Reach s gs) (hook_owing : Owing hook { vnode := 1, opens := o })
    (hopens : o ≤ 1) (hcookies : may = true → o ≤ s.cookies) (hmay : may = true → s.published = true ∧ s.stage = .open_)
    (hs : State.call { s with cookies := s.cookies - o } hook may = some s') :
    Reach s' (gs ++ [{ vnode := 1, opens := o }]) := by
  obtain ⟨hm, hs⟩ := Option.ite_none_right_eq_some.1 hs
  cases hs
  obtain ⟨hp, hst⟩ := hmay hm
  obtain ⟨hc, hh⟩ := h.sound
  exact h.start hook_owing ⟨Nat.zero_le _, hopens, fun hz => nomatch hz⟩ rfl rfl rfl rfl rfl ⟨rfl, rfl, rfl⟩
    (Nat.sub_add_cancel (hcookies hm)).symm rfl rfl rfl rfl rfl (fun hne => absurd hst hne) hc.closed
    (fun hpub => by rw [show s.published = false from hpub] at hp; exact nomatch hp) hc.dead

theorem free_reach {hook : Hook Unit} (h : Reach s gs) (hook_owing : Owing hook {}) :
    Reach { s with threads := s.threads ++ [hook] } (gs ++ [({} : Debt)]) := by
  obtain ⟨hc, hh⟩ := h.sound
  exact h.start hook_owing ⟨Nat.le_refl _, Nat.le_refl _, fun _ => rfl⟩ rfl rfl rfl rfl rfl ⟨rfl, rfl, rfl⟩ rfl rfl rfl rfl rfl rfl
    hc.put hc.closed hc.private_ hc.dead

/-- **A node nobody needs has no handle.** -/
theorem unneeded (h : Sound s gs) (hp : s.published = false) (hz : s.pending = 0) :
    s.node.fhMode = .none ∧ s.node.staleFh = [] ∧ s.node.opens = 0 ∧ s.node.fhUsers = 0 := by
  obtain ⟨hb, ha, hc, -⟩ := h.counts.private_ hp
  have hu := unused h hb ha
  have ho : s.node.opens = 0 := by
    rw [h.counts.opens, hc, Nat.zero_add, List.sum_eq_zero_iff_forall_eq_nat]
    intro o ho
    obtain ⟨d, hd, rfl⟩ := List.mem_map.1 ho
    have hv := List.sum_eq_zero_iff_forall_eq_nat.1 (h.counts.busy.symm.trans hb) _ (List.mem_map_of_mem hd)
    have hpd := List.sum_eq_zero_iff_forall_eq_nat.1 (h.counts.pending.symm.trans hz) _ (List.mem_map_of_mem hd)
    have := (h.counts.wf d hd).opens
    omega
  refine ⟨?_, h.held.ok.stale_of_unused hu, ho, hu⟩
  by_contra hm
  rcases h.held.ok.needed hm with hne | hne
  · exact hne ho
  · exact hne hu

theorem reclaim_reach (h : Reach s gs) (hp : s.published = false) (hz : s.pending = 0) :
    Reach { s with alive := false, node := {}, threads := s.threads ++ [releaseAll s.node.dropHandle.2.toList] }
      (gs ++ [({} : Debt)]) := by
  obtain ⟨hc, hh⟩ := h.sound
  obtain ⟨hm, hst, ho, hu⟩ := unneeded h.sound hp hz
  have hnone : s.node.dropHandle.2 = none := by
    unfold Node.dropHandle
    rw [if_neg (not_not.2 hm)]
  have hempty : Node.handles {} = s.node.handles := by
    rw [Node.handles_of_none hst hm]
    rfl
  -- the node as it will be, still in the table
  have hclean : Reach { s with node := {} } gs := by
    refine ⟨⟨⟨ho ▸ hc.opens, hc.busy, hc.paging, hc.pending, hc.deleting, hc.closing, hc.put, hc.closed, hc.private_,
      fun hd => ⟨(hc.dead hd).1, (hc.dead hd).2.1, rfl⟩, hc.wf⟩, ⟨?_, hh.brought, hh.nodup, hh.below, hu ▸ hh.users, ?_,
      ⟨Nat.zero_le _, fun hne => absurd rfl hne, fun hne => absurd rfl hne⟩⟩⟩, h.owes⟩
    · rw [show ({ s with node := {} } : State).node.handles = s.node.handles from hempty]
      exact hh.opened
    · rw [show ({ s with node := {} } : State).node.handles = s.node.handles from hempty]
      exact hh.uses
  rw [hnone]
  have howing : Owing (releaseAll []) {} := ⟨rfl, rfl, rfl, rfl, rfl, rfl, rfl, rfl, rfl⟩
  exact hclean.start howing ⟨Nat.le_refl _, Nat.le_refl _, fun _ => rfl⟩ rfl rfl rfl rfl rfl ⟨rfl, rfl, rfl⟩ rfl rfl rfl rfl rfl rfl
    hc.put hc.closed hc.private_ (fun _ => ⟨hp, hz, rfl⟩)

theorem start_reach {m : Mount} {hook : Start} (h : Reach s gs) (hs : s.start m hook = some s') : ∃ gs', Reach s' gs' := by
  obtain ⟨hc, hh⟩ := h.sound
  have hused {may : Bool} (hmay : may = (s.published && s.stage == .open_)) : may = true → s.published = true ∧ s.stage = .open_ := by
    rw [hmay]
    simp
  cases hook with
  | readPages vecs requested =>
    refine ⟨_, page_reach h (readPages_owing m vecs requested) (fun hm => ?_) hs⟩
    obtain ⟨hp, hst⟩ := hused rfl hm
    exact ⟨hp, by rw [hst]; exact nofun⟩
  | writePages pos vecs requested =>
    exact ⟨_, page_reach h (writePages_owing m pos vecs requested) (by simp) hs⟩
  | fsync => exact ⟨_, call_reach (o := 0) h fsync_owing (Nat.zero_le _) (fun _ => Nat.zero_le _) (hused rfl) hs⟩
  | openFile writable truncate =>
    exact ⟨_, call_reach (o := 0) h (openFile_owing writable truncate) (Nat.zero_le _) (fun _ => Nat.zero_le _) (hused rfl) hs⟩
  | close writable =>
    exact ⟨_, call_reach (o := 0) h (close_owing writable) (Nat.zero_le _) (fun _ => Nat.zero_le _)
      (fun hm => hused rfl (Bool.and_eq_true_iff.1 hm).1) hs⟩
  | freeCookie =>
    refine ⟨_, call_reach (o := 1) h freeCookie_owing (Nat.le_refl _) (fun hm => ?_)
      (fun hm => hused rfl (Bool.and_eq_true_iff.1 hm).1) hs⟩
    have := (Bool.and_eq_true_iff.1 hm).2
    simp only [bne_iff_ne] at this
    omega
  | create =>
    cases hs
    exact ⟨_, free_reach h (create_owing m)⟩
  | lookup =>
    cases hs
    exact ⟨_, free_reach h lookup_owing⟩
  | putVnode =>
    obtain ⟨⟨hp, hst, hck, hb, hpg⟩, hs⟩ := Option.ite_none_right_eq_some.1 hs
    cases hs
    refine ⟨_, h.start putVnode_owing ⟨Nat.le_refl _, Nat.le_refl _, fun hz => nomatch hz⟩ rfl rfl rfl rfl rfl ⟨rfl, rfl, rfl⟩
      rfl rfl rfl rfl ?_ ?_ (fun _ => ⟨hb, hck⟩) (fun hcl => nomatch hcl)
      (fun hpub => by rw [show s.published = false from hpub] at hp; exact nomatch hp) hc.dead⟩
    · rw [hst]
      rfl
    · rw [hst]
      rfl
  | reclaim =>
    obtain ⟨⟨-, hp, hz⟩, hs⟩ := Option.ite_none_right_eq_some.1 hs
    cases hs
    exact ⟨_, reclaim_reach h hp hz⟩

theorem step_reach {m : Mount} {e : Event} (h : ∃ gs, Reach s gs) (hs : s.step m e = some s') : ∃ gs, Reach s' gs := by
  obtain ⟨gs, h⟩ := h
  cases e with
  | start hook => exact start_reach h hs
  | act i c =>
    unfold State.step at hs
    dsimp only at hs
    split at hs
    · next a k hi =>
      obtain ⟨⟨s1, r⟩, hp, rfl⟩ := Option.map_eq_some_iff.1 hs
      obtain ⟨g, hg, hhonest, hset⟩ := h.owes.step hi
      have hsound := perform_sound h.sound hg hhonest.1 hp
      have hthreads : s1.threads = s.threads := perform_threads hp
      refine ⟨_, ⟨⟨hsound.counts.opens, hsound.counts.busy, hsound.counts.paging, hsound.counts.pending, hsound.counts.deleting,
        hsound.counts.closing, hsound.counts.put, hsound.counts.closed, hsound.counts.private_, hsound.counts.dead,
        hsound.counts.wf⟩, ⟨hsound.held.opened, hsound.held.brought, hsound.held.nodup, hsound.held.below, hsound.held.users,
        hsound.held.uses, hsound.held.ok⟩⟩, ?_⟩
      show Owes _ _ _ _ (s1.threads.set i (k r)) _
      rw [hthreads]
      exact hset (hhonest.2 r trivial)
    · exact nomatch hs

/-- **The file's handles**: a request names a handle the host has open, and so does a release, so none is released twice; a
node that is deleted has none; and when every call has returned, whatever is open is the node's. -/
structure Handled (s : State) : Prop where
  live : ∀ p ∈ s.threads, ∀ op fh k, p = .act (.request op fh) k → fh ∈ s.opened
  released : ∀ p ∈ s.threads, ∀ fh, (∀ k, p = .act (.release fh) k → fh ∈ s.opened) ∧
    ∀ k, p = .act (.giveBack fh) k → fh ∈ s.opened
  once : s.opened.Nodup ∧ ∀ fh ∈ s.opened, fh < s.fresh
  deleted : s.alive = false → s.opened = s.brought
  left : (∀ p ∈ s.threads, p.done = true) → s.opened = s.node.handles

theorem counts_initial : Counts {} [] where
  opens := rfl
  busy := rfl
  paging := rfl
  pending := rfl
  deleting := rfl
  closing := rfl
  put := fun hne => absurd rfl hne
  closed := fun hne => nomatch hne
  private_ := fun _ => ⟨rfl, rfl, rfl, rfl⟩
  dead := fun _ => ⟨rfl, rfl, rfl⟩
  wf := fun _ hg => absurd hg List.not_mem_nil

theorem held_initial : Held {} [] where
  opened := rfl
  brought := rfl
  nodup := Multiset.nodup_zero
  below := fun fh hfh => absurd hfh (Multiset.notMem_zero fh)
  users := rfl
  uses := fun _ hg => absurd hg List.not_mem_nil
  ok := ⟨Nat.zero_le _, fun hne => absurd rfl hne, fun hne => absurd rfl hne⟩

theorem sum_eq_zero {f : Debt → Multiset Handle} (hf : ∀ g ∈ gs, f g = 0) : (gs.map f).sum = 0 := by
  induction gs with
  | nil => rfl
  | cons g gs ih =>
    rw [List.map_cons, List.sum_cons, hf g (List.mem_cons_self ..), zero_add]
    exact ih fun d hd => hf d (List.mem_cons_of_mem _ hd)

theorem Reach.upheld (h : Reach s gs) : Handled s := by
  obtain ⟨hc, hh⟩ := h.sound
  have hright {p : Hook Unit} (hp : p ∈ s.threads) : ∃ (i : Nat) (g : Debt), gs[i]? = some g ∧ Owing p g := by
    obtain ⟨i, hi⟩ := List.mem_iff_getElem?.1 hp
    obtain ⟨g, hg, hhonest, -⟩ := h.owes.step hi
    exact ⟨i, g, hg, hhonest⟩
  refine ⟨fun p hp op fh k he => ?_, fun p hp fh => ⟨fun k he => ?_, fun k he => ?_⟩, ⟨hh.nodup, hh.below⟩, fun hd => ?_, fun hd => ?_⟩
  · obtain ⟨i, g, hg, hhonest⟩ := hright hp
    rw [he] at hhonest
    exact Multiset.mem_of_le (handles_opened hh) (hh.uses g (List.mem_of_getElem? hg) fh hhonest.1)
  · obtain ⟨i, g, hg, hhonest⟩ := hright hp
    rw [he] at hhonest
    exact Multiset.mem_of_le (owed_le hh hg) hhonest.1
  · obtain ⟨i, g, hg, hhonest⟩ := hright hp
    rw [he] at hhonest
    exact Multiset.mem_of_le ((brought_le hh hg).trans (brought_opened hh)) hhonest.1
  · have howed : (gs.map Debt.owed).sum = 0 := sum_eq_zero fun g hg => by
      obtain ⟨i, hi⟩ := List.mem_iff_getElem?.1 hg
      refine (hc.wf g hg).owed ?_
      by_contra hne
      have := alive_of_share hc hi hne
      rw [hd] at this
      exact nomatch this
    rw [hh.opened, howed, (hc.dead hd).2.2]
    simp [Node.handles]
  · have hclear := h.owes.done hd
    rw [hh.opened, hh.brought, sum_eq_zero fun g hg => (hclear g hg).2.1, sum_eq_zero fun g hg => (hclear g hg).2.2.1]
    simp

/-- **Every run of the hooks handles its handles well.** -/
theorem handled (m : Mount) (events : List Event) (s : State) (hrun : Runs.run (State.step m) {} events = some s) : Handled s := by
  obtain ⟨gs, h⟩ := Runs.run_inv (I := fun s => ∃ gs, Reach s gs) (Q := fun _ _ => True)
    (fun _ _ _ hi _ hs => step_reach hi hs) ⟨[], ⟨counts_initial, held_initial⟩, .nil⟩ (Runs.along_iff.2 fun _ _ _ _ _ _ => trivial) hrun
  exact h.upheld

theorem maxIo_pos : 0 < 131072 := by decide

def writableMount : Mount := ⟨false, 131072, 131072, maxIo_pos, maxIo_pos⟩

/-- A file is created, synced and closed, its vnode put and its node deleted. -/
def oneFile : List Event :=
  .start .create :: List.replicate 7 (.act 0 {}) ++ .start .fsync :: List.replicate 5 (.act 1 {}) ++
  .start .freeCookie :: List.replicate 3 (.act 2 {}) ++ .start .putVnode :: List.replicate 3 (.act 3 {}) ++ [.start .reclaim]

theorem oneFile_runs : (Runs.run (State.step writableMount) {} oneFile).isSome = true := by decide

theorem oneFile_handled : Handled ((Runs.run (State.step writableMount) {} oneFile).get oneFile_runs) :=
  handled writableMount oneFile _ (Option.some_get oneFile_runs).symm

end HostfsFile
end Prose
