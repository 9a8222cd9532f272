import Prose.FileCacheSizes
/-!
# FileCacheStamps — a good cache after an open

The pages in the cache are no older than the stamp: a refresh has emptied the cache before it asks for one.  An open takes the
attributes as they are then; where they are the stamp's, the cache is as new as they are, and otherwise the file is stale until
the cache is emptied.  `FUSE_SETATTR` and the last writer's close set a stamp beside the pages that are there: if the host has
changed the file since these were read, they pass for new.
-/
namespace Prose
namespace HostfsCache

open Tasks List
open HostfsFile (Mount Reply)

/-- The pages in the cache have been read after so many changes, or later. -/
def Current (s : State) (version : Nat) : Prop := ∀ p ∈ s.pages, version ≤ p

instance (s : State) (version : Nat) : Decidable (Current s version) := inferInstanceAs (Decidable (∀ p ∈ s.pages, version ≤ p))

/-- **Close-to-open**: whatever is served has been read after the changes that were complete when an open began, if no writer
was about; and no cached page is older than the stamp. -/
structure Fresh (s : State) : Prop where
  served : Current s s.opened
  stamped : Current s s.node.stamp.version

/-- The attributes have not been those of another content of the file. -/
def Told (s : State) (attr : Attr) : Prop := ∀ a ∈ s.past, a.attr = attr → a.version = s.host.version

instance (s : State) (attr : Attr) : Decidable (Told s attr) :=
  inferInstanceAs (Decidable (∀ a ∈ s.past, a.attr = attr → a.version = s.host.version))

/-- What a thread may go on to do: no page is mapped, attributes tell, and where a stamp is set beside the cached pages the host
has not changed the file since they were read. -/
def FineAct (s : State) (c : Choice) : Act → Prop
  | .disable => c.ok = true
  | .setAttr change => c.ok = true → Told s (s.changed c.attr change)
  | .write _ _ => c.reply.ok = true → Told s c.attr
  | .setStamp _ => Current s s.host.version
  | .setSize _ _ => Current s s.host.version
  | .closed a => s.node.writers = 1 → (a.attr.size : Int) = s.node.size → Current s s.host.version
  | _ => True

/-- The same of what happens, and the host gives the file attributes it never had. -/
def Fine (s : State) : Event → Prop
  | .host attr => ∀ a ∈ s.past, a.attr ≠ attr
  | .act i c =>
    match s.threads[i]? with
    | some (.act a _) => FineAct s c a
    | _ => True
  | _ => True

instance (s : State) (c : Choice) : (a : Act) → Decidable (FineAct s c a)
  | .disable => inferInstanceAs (Decidable (c.ok = true))
  | .setAttr change => inferInstanceAs (Decidable (c.ok = true → Told s (s.changed c.attr change)))
  | .write _ _ => inferInstanceAs (Decidable (c.reply.ok = true → Told s c.attr))
  | .setStamp _ => inferInstanceAs (Decidable (Current s s.host.version))
  | .setSize _ _ => inferInstanceAs (Decidable (Current s s.host.version))
  | .closed a => inferInstanceAs (Decidable (s.node.writers = 1 → (a.attr.size : Int) = s.node.size → Current s s.host.version))
  | .lockRefresh | .unlockRefresh | .lockSize | .unlockSize | .lockShared | .unlockShared | .fresh | .getAttr | .takeAttr _ |
    .worth | .adopt _ | .enable | .getSize | .grow _ _ | .addOpen _ _ _ | .dropOpen _ | .giveCookie _ | .other =>
    inferInstanceAs (Decidable True)

instance (s : State) : (e : Event) → Decidable (Fine s e)
  | .host attr => inferInstanceAs (Decidable (∀ a ∈ s.past, a.attr ≠ attr))
  | .act i c => by
    unfold Fine
    dsimp only
    split <;> infer_instance
  | .start _ => isTrue trivial
  | .fill => isTrue trivial
  | .evict _ => isTrue trivial

/-! ## The invariant -/

structure Stamps (s : State) : Prop where
  host : s.host ∈ s.past
  past : ∀ a ∈ s.past, a.version ≤ s.host.version
  told : ∀ a ∈ s.past, ∀ b ∈ s.past, a.attr = b.attr → a.version = b.version
  stamp : s.node.stamp ∈ s.past
  empty : s.disabled = true → s.pages = []
  pages : Current s s.node.stamp.version
  opened : s.opened ≤ s.host.version ∧ Current s s.opened

/-- What a thread knows: the host's word, and, if it opens the file and no writer comes, that the cache is good or marked. -/
structure Dated (s : State) (g : Debt) : Prop where
  disabled : g.disabled = true → g.refresh = true ∧ s.disabled = true
  reply : ∀ a, g.reply = some a → a ∈ s.past ∧ ∀ v q, g.since = some (v, q) → v ≤ a.version
  since : ∀ v q, g.since = some (v, q) → v ≤ s.host.version ∧
    ∀ n, q = some n → n ≤ s.writerOpens ∧ (n = s.writerOpens → s.node.writers = 0)
  taken : g.taken = true → ∀ v, g.since = some (v, some s.writerOpens) → s.node.stale = true ∨ Current s v
  served : g.served = true → ∀ v, g.since = some (v, some s.writerOpens) → Current s v

/-- What all threads go by: the host does not go back, and neither does the cache; what is marked stays so until the cache is
good. -/
structure Keeps (s s' : State) : Prop where
  version : s.host.version ≤ s'.host.version
  past : ∀ a ∈ s.past, a ∈ s'.past
  opens : s.writerOpens ≤ s'.writerOpens
  quiet : s'.writerOpens = s.writerOpens → s.node.writers = 0 → s'.node.writers = 0
  current : ∀ v ≤ s.host.version, Current s v → Current s' v
  stale : ∀ v ≤ s.host.version, s.node.stale = true → s'.node.stale = true ∨ Current s' v

section
variable {s s' : State} {i : Nat} {g g' : Debt}

theorem Dated.keep (hk : Keeps s s') (h : Dated s g) (hsince : g'.since = g.since)
    (hreply : ∀ a, g'.reply = some a → g.reply = some a) (htaken : g'.taken = g.taken) (hserved : g'.served = g.served)
    (hdisabled : g'.disabled = true → g'.refresh = true ∧ s'.disabled = true) : Dated s' g' := by
  have hnow (v : Nat) (hv : g.since = some (v, some s'.writerOpens)) : v ≤ s.host.version ∧ s'.writerOpens = s.writerOpens := by
    obtain ⟨hle, hq⟩ := h.since v _ hv
    exact ⟨hle, le_antisymm (hq _ rfl).1 hk.opens⟩
  refine ⟨hdisabled, fun a ha => ?_, fun v q hv => ?_, fun ht v hv => ?_, fun hs v hv => ?_⟩
  · obtain ⟨hmem, hle⟩ := h.reply a (hreply a ha)
    rw [hsince]
    exact ⟨hk.past a hmem, hle⟩
  · rw [hsince] at hv
    obtain ⟨hle, hq⟩ := h.since v q hv
    refine ⟨hle.trans hk.version, fun n hn => ⟨(hq n hn).1.trans hk.opens, fun he => ?_⟩⟩
    have heq : s'.writerOpens = s.writerOpens := le_antisymm (he ▸ (hq n hn).1) hk.opens
    exact hk.quiet heq ((hq n hn).2 (he.trans heq))
  · rw [hsince] at hv
    obtain ⟨hle, heq⟩ := hnow v hv
    rw [heq] at hv
    rcases h.taken (htaken ▸ ht) v hv with hstale | hcur
    · exact hk.stale v hle hstale
    · exact .inr (hk.current v hle hcur)
  · rw [hsince] at hv
    obtain ⟨hle, heq⟩ := hnow v hv
    rw [heq] at hv
    exact hk.current v hle (h.served (hserved ▸ hs) v hv)

structure Kept (s s' : State) (g' : Debt) : Prop where
  stamps : Stamps s'
  own : Dated s' g'
  keeps : Keeps s s'

structure Same (s s' : State) : Prop where
  stale : s'.node.stale = s.node.stale
  stamp : s'.node.stamp = s.node.stamp
  writers : s'.node.writers = s.node.writers
  host : s'.host = s.host
  past : s'.past = s.past
  pages : s'.pages = s.pages
  opens : s'.writerOpens = s.writerOpens
  opened : s'.opened = s.opened

theorem Same.current (h : Same s s') {v : Nat} (hc : Current s v) : Current s' v := by
  unfold Current
  rw [h.pages]
  exact hc

theorem Same.keeps (h : Same s s') : Keeps s s' where
  version := by rw [h.host]
  past := by
    rw [h.past]
    exact fun _ ha => ha
  opens := by rw [h.opens]
  quiet := by
    rw [h.writers]
    exact fun _ hw => hw
  current := fun _ _ hc => h.current hc
  stale := fun _ _ hs => .inl (by rw [h.stale]; exact hs)

theorem Same.stamps (h : Same s s') (hs : Stamps s) (hempty : s'.disabled = true → s.pages = []) : Stamps s' where
  host := by
    rw [h.host, h.past]
    exact hs.host
  past := by
    rw [h.host, h.past]
    exact hs.past
  told := by
    rw [h.past]
    exact hs.told
  stamp := by
    rw [h.stamp, h.past]
    exact hs.stamp
  empty := by
    rw [h.pages]
    exact hempty
  pages := by
    rw [h.stamp]
    exact h.current hs.pages
  opened := by
    rw [h.opened, h.host]
    exact ⟨hs.opened.1, h.current hs.opened.2⟩

theorem setHost_keeps (s : State) (attr : Attr) : Keeps s (s.setHost ⟨attr, s.host.version⟩) where
  version := le_refl _
  past := fun _ ha => mem_cons_of_mem _ ha
  opens := le_refl _
  quiet := fun _ hw => hw
  current := fun _ _ hc => hc
  stale := fun _ _ hst => .inl hst

theorem told_cons {past : List Seen} {host : Seen} (htold : ∀ a ∈ past, ∀ b ∈ past, a.attr = b.attr → a.version = b.version)
    (hnew : ∀ a ∈ past, a.attr = host.attr → a.version = host.version) :
    ∀ a ∈ host :: past, ∀ b ∈ host :: past, a.attr = b.attr → a.version = b.version := by
  intro a ha b hb heq
  rcases mem_cons.1 ha with rfl | hpa <;> rcases mem_cons.1 hb with rfl | hpb
  · rfl
  · exact (hnew b hpb heq.symm).symm
  · exact hnew a hpa heq
  · exact htold a hpa b hpb heq

theorem setHost_stamps (hs : Stamps s) {attr : Attr} (htold : Told s attr) : Stamps (s.setHost ⟨attr, s.host.version⟩) where
  host := mem_cons_self
  past := fun a ha => by
    rcases mem_cons.1 ha with rfl | ha
    · exact le_refl _
    · exact hs.past a ha
  told := told_cons hs.told htold
  stamp := mem_cons_of_mem _ hs.stamp
  empty := hs.empty
  pages := hs.pages
  opened := hs.opened

theorem reply_dated (hd : Dated s g) (hk : Keeps s s') (hhost : s'.host.version = s.host.version) {a : Option Seen}
    (ha : ∀ x, a = some x → x ∈ s'.past ∧ x.version = s'.host.version) (hdisabled : s'.disabled = s.disabled) (known : Option Clip) :
    Dated s' { g with reply := a, known } := by
  have hkeep : Dated s' { g with reply := none, known } := hd.keep hk rfl nofun rfl rfl (by rw [hdisabled]; exact hd.disabled)
  refine ⟨hkeep.disabled, fun x hx => ?_, hkeep.since, hkeep.taken, hkeep.served⟩
  obtain ⟨hmem, hver⟩ := ha x hx
  refine ⟨hmem, fun v q hv => ?_⟩
  rw [hver, hhost]
  exact (hd.since v q hv).1

section
variable (hs : Stamps s) (hd : Dated s g)
include hs hd

theorem same_kept (h : Same s s') (hempty : s'.disabled = s.disabled) (hsince : g'.since = g.since)
    (hreply : ∀ a, g'.reply = some a → g.reply = some a) (htaken : g'.taken = g.taken) (hserved : g'.served = g.served)
    (hdisabled : g'.disabled = true → g'.refresh = true ∧ s.disabled = true) : Kept s s' g' :=
  ⟨h.stamps hs (by rw [hempty]; exact hs.empty), hd.keep h.keeps hsince hreply htaken hserved (by rw [hempty]; exact hdisabled),
    h.keeps⟩

theorem getAttr_kept {c : Choice} : Kept s s { g with reply := if c.ok = true then some s.host else none } := by
  have hk : Keeps s s := (Same.mk rfl rfl rfl rfl rfl rfl rfl rfl).keeps
  refine ⟨hs, ?_, hk⟩
  refine reply_dated hd (a := if c.ok = true then some s.host else none) hk rfl (fun x hx => ?_) rfl g.known
  obtain ⟨-, hx⟩ := Option.ite_none_right_eq_some.1 hx
  cases hx
  exact ⟨hs.host, rfl⟩

/-- **`node_take_attr`**: attributes as new as the open either are the stamp's, and the cache is as new, or mark the file. -/
theorem takeAttr_kept {a : Seen} (ha : g.reply = some a) :
    Kept s { s with node := s.node.takeAttr a } { g with reply := none, taken := true } := by
  obtain ⟨hmem, hle⟩ := hd.reply a ha
  have hstamp : (s.node.takeAttr a).stamp = s.node.stamp ∧ (s.node.takeAttr a).writers = s.node.writers := by
    unfold Node.takeAttr
    dsimp only
    split_ifs <;> exact ⟨rfl, rfl⟩
  have hstale : (s.node.takeAttr a).stale = true ∨ s.node.writers ≠ 0 ∨ a.attr = s.node.stamp.attr := by
    unfold Node.takeAttr
    dsimp only
    split_ifs with hw heq
    · exact .inr (.inl (Nat.pos_iff_ne_zero.1 hw))
    · exact .inr (.inr heq)
    · exact .inl rfl
  have hmono (h : s.node.stale = true) : (s.node.takeAttr a).stale = true := by
    unfold Node.takeAttr
    dsimp only
    split_ifs
    · exact h
    · exact h
    · rfl
  have hk : Keeps s { s with node := s.node.takeAttr a } :=
    ⟨le_refl _, fun _ h => h, le_refl _, fun _ hw => hstamp.2.trans hw, fun _ _ hc => hc, fun _ _ h => .inl (hmono h)⟩
  have hkeep : Dated _ { g with reply := none } := hd.keep hk rfl nofun rfl rfl hd.disabled
  refine ⟨⟨hs.host, hs.past, hs.told, ?_, hs.empty, ?_, hs.opened⟩,
    ⟨hkeep.disabled, hkeep.reply, hkeep.since, fun _ v hv => ?_, hkeep.served⟩, hk⟩
  · show (s.node.takeAttr a).stamp ∈ s.past
    rw [hstamp.1]
    exact hs.stamp
  · show Current s (s.node.takeAttr a).stamp.version
    rw [hstamp.1]
    exact hs.pages
  · rcases hstale with h | h | h
    · exact .inl h
    · exact absurd (((hd.since v _ hv).2 _ rfl).2 rfl) h
    · refine .inr fun p hp => ?_
      have := hs.told a hmem _ hs.stamp h
      have := hle v _ hv
      have := hs.pages p hp
      omega

theorem worth_kept : Kept s s { g with served := g.served || (g.taken && !s.node.worth) } := by
  refine ⟨hs, ⟨hd.disabled, hd.reply, hd.since, hd.taken, fun hserved v hv => ?_⟩, (Same.mk rfl rfl rfl rfl rfl rfl rfl rfl).keeps⟩
  rcases Bool.or_eq_true_iff.1 hserved with h | h
  · exact hd.served h v hv
  obtain ⟨htaken, hworth⟩ := Bool.and_eq_true_iff.1 h
  rcases hd.taken htaken v hv with hstale | hcur
  · have hw := ((hd.since v _ hv).2 _ rfl).2 rfl
    unfold Node.worth at hworth
    rw [hstale, hw] at hworth
    exact nomatch hworth
  · exact hcur

theorem disable_kept (hr : g.refresh = true) :
    Kept s { s with pages := [], disabled := true } { g with disabled := true, served := true } := by
  have hnone (v : Nat) : Current { s with pages := [], disabled := true } v := fun _ hp => absurd hp not_mem_nil
  have hk : Keeps s { s with pages := [], disabled := true } :=
    ⟨le_refl _, fun _ h => h, le_refl _, fun _ hw => hw, fun v _ _ => hnone v, fun _ _ h => .inl h⟩
  have hkeep : Dated _ { g with disabled := true } := hd.keep hk rfl (fun _ h => h) rfl rfl (fun _ => ⟨hr, rfl⟩)
  exact ⟨⟨hs.host, hs.past, hs.told, hs.stamp, fun _ => rfl, hnone _, hs.opened.1, hnone _⟩,
    ⟨hkeep.disabled, hkeep.reply, hkeep.since, hkeep.taken, fun _ v _ => hnone v⟩, hk⟩

/-- **A stamp is set** where no cached page is older than the host's last change, or none is cached. -/
theorem stamp_kept {a : Seen} {n : Node} (ha : g.reply = some a) (hcur : Current s s.host.version) (hn : n.stamp = a)
    (hw : n.writers = s.node.writers) {recent appends : List Range} (known : Option Clip) :
    Kept s { s with node := n, recent, appends } { g with reply := none, known } := by
  obtain ⟨hmem, -⟩ := hd.reply a ha
  have hall (v : Nat) (hv : v ≤ s.host.version) : Current s v := fun p hp => hv.trans (hcur p hp)
  have hk : Keeps s { s with node := n, recent, appends } :=
    ⟨le_refl _, fun _ h => h, le_refl _, fun _ h => hw.trans h, fun v hv _ => hall v hv, fun v hv _ => .inr (hall v hv)⟩
  refine ⟨⟨hs.host, hs.past, hs.told, ?_, hs.empty, ?_, hs.opened⟩, hd.keep hk rfl nofun rfl rfl hd.disabled, hk⟩
  · show n.stamp ∈ s.past
    rw [hn]
    exact hmem
  · show Current s n.stamp.version
    rw [hn]
    exact hall _ (hs.past a hmem)

theorem adopt_kept {a : Option Seen} (hdis : g.disabled = true) (ha : g.reply = a) :
    Kept s { s with node := s.node.adopt a, recent := [] } { g with reply := none, known := none } := by
  have hcur : Current s s.host.version := by
    unfold Current
    rw [hs.empty (hd.disabled hdis).2]
    exact fun _ hp => absurd hp not_mem_nil
  cases a with
  | none => exact same_kept hs hd ⟨rfl, rfl, rfl, rfl, rfl, rfl, rfl, rfl⟩ rfl rfl nofun rfl rfl hd.disabled
  | some a => exact stamp_kept (n := { s.node.setStamp a with size := a.attr.size }) hs hd ha hcur rfl rfl none

theorem closed_kept {a : Seen} (ha : g.reply = some a)
    (hcur : s.node.writers = 1 → (a.attr.size : Int) = s.node.size → Current s s.host.version) :
    Kept s { s with node := s.node.closed a } { g with reply := none } := by
  unfold Node.closed
  split
  · next hw =>
    split
    · next hsize => exact stamp_kept (n := s.node.setStamp a) hs hd ha (hcur hw hsize) rfl rfl g.known
    have hk : Keeps s { s with node := { s.node with attr := a.attr, stale := true } } :=
      ⟨le_refl _, fun _ h => h, le_refl _, fun _ h => h, fun _ _ hc => hc, fun _ _ _ => .inl rfl⟩
    exact ⟨⟨hs.host, hs.past, hs.told, hs.stamp, hs.empty, hs.pages, hs.opened⟩,
      hd.keep hk rfl nofun rfl rfl hd.disabled, hk⟩
  · exact same_kept hs hd ⟨rfl, rfl, rfl, rfl, rfl, rfl, rfl, rfl⟩ rfl rfl nofun rfl rfl hd.disabled

/-- **An open that has found the cache good** is one it may be measured by. -/
theorem addOpen_kept {writable : Bool} {since : Nat} {quiet : Option Nat} (hserved : g.served = true)
    (hsince : g.since = some (since, quiet)) {s1 : State}
    (hs1 : s1 = if quiet = some s.writerOpens then { s with opened := max s.opened since } else s) :
    Kept s (if writable then
      { s1 with node := { s1.node with writers := s1.node.writers + 1 }, writerOpens := s1.writerOpens + 1 } else s1) g := by
  have hopened : Kept s s1 g := by
    rw [hs1]
    split
    · next hq =>
      have hk : Keeps s { s with opened := max s.opened since } :=
        ⟨le_refl _, fun _ h => h, le_refl _, fun _ hw => hw, fun _ _ hc => hc, fun _ _ h => .inl h⟩
      have hcur := hd.served hserved since (by rw [hsince, hq])
      refine ⟨⟨hs.host, hs.past, hs.told, hs.stamp, hs.empty, hs.pages, ?_, fun p hp => ?_⟩,
        hd.keep hk rfl (fun _ h => h) rfl rfl hd.disabled, hk⟩
      · exact max_le hs.opened.1 (hd.since since quiet hsince).1
      · exact max_le (hs.opened.2 p hp) (hcur p hp)
    · exact same_kept hs hd ⟨rfl, rfl, rfl, rfl, rfl, rfl, rfl, rfl⟩ rfl rfl (fun _ h => h) rfl rfl hd.disabled
  cases writable with
  | false => exact hopened
  | true =>
    have hk : Keeps s { s1 with node := { s1.node with writers := s1.node.writers + 1 }, writerOpens := s1.writerOpens + 1 } := by
      have hlt : s.writerOpens < s1.writerOpens + 1 := Nat.lt_succ_of_le hopened.keeps.opens
      exact ⟨hopened.keeps.version, hopened.keeps.past, hlt.le, fun he => absurd he hlt.ne', hopened.keeps.current,
        hopened.keeps.stale⟩
    have hst := hopened.stamps
    exact ⟨⟨hst.host, hst.past, hst.told, hst.stamp, hst.empty, hst.pages, hst.opened⟩,
      hd.keep hk rfl (fun _ h => h) rfl rfl hopened.own.disabled, hk⟩

end
theorem Keeps.trans {s1 : State} (h : Keeps s s1) (h1 : Keeps s1 s') : Keeps s s' where
  version := h.version.trans h1.version
  past := fun a ha => h1.past a (h.past a ha)
  opens := h.opens.trans h1.opens
  quiet := fun he hw => by
    have := h.opens
    have := h1.opens
    exact h1.quiet (by omega) (h.quiet (by omega) hw)
  current := fun v hv hc => h1.current v (hv.trans h.version) (h.current v hv hc)
  stale := fun v hv hst => by
    rcases h.stale v hv hst with hst | hc
    · exact h1.stale v (hv.trans h.version) hst
    · exact .inr (h1.current v (hv.trans h.version) hc)

theorem requested_same (s : State) (change : Change) : Same s (s.requested change) := by
  cases change <;> exact ⟨rfl, rfl, rfl, rfl, rfl, rfl, rfl, rfl⟩

theorem requested_disabled (s : State) (change : Change) : (s.requested change).disabled = s.disabled := by
  cases change <;> rfl

theorem setAttr_kept (hs : Stamps s) (hd : Dated s g) {attr : Attr} (change : Change) (htold : Told s attr) :
    Kept s ((s.requested change).setHost ⟨attr, s.host.version⟩)
      { g with reply := some ⟨attr, s.host.version⟩, known := none } := by
  have hsame := requested_same s change
  have hdis := requested_disabled s change
  have hs1 := hsame.stamps hs (by rw [hdis]; exact hs.empty)
  have hd1 : Dated (s.requested change) g := hd.keep hsame.keeps rfl (fun _ h => h) rfl rfl (by rw [hdis]; exact hd.disabled)
  have htold1 : Told (s.requested change) attr := by
    unfold Told
    rw [hsame.past, hsame.host]
    exact htold
  rw [← hsame.host]
  have hk := setHost_keeps (s.requested change) attr
  refine ⟨setHost_stamps hs1 htold1, ?_, hsame.keeps.trans hk⟩
  refine reply_dated hd1 hk rfl (fun x hx => ?_) rfl none
  cases hx
  exact ⟨mem_cons_self, rfl⟩

theorem unanswered_kept (hs : Stamps s) (hd : Dated s g) (change : Change) :
    Kept s (s.requested change) { g with reply := none, known := none } :=
  same_kept hs hd (requested_same s change) (requested_disabled s change) rfl nofun rfl rfl hd.disabled

/-- **Every action keeps the dates** that is a fine one. -/
theorem perform_kept {c : Choice} (hs : Stamps s) (hd : Dated s g) : ∀ {a : Act} {r : Answer a}, FineAct s c a → ready a g →
    s.perform i c a = some (s', r) → Kept s s' (after a r g)
  | .lockRefresh, _, _, _, h => by
    obtain ⟨-, h⟩ := Option.ite_none_right_eq_some.1 h
    cases h
    exact same_kept hs hd ⟨rfl, rfl, rfl, rfl, rfl, rfl, rfl, rfl⟩ rfl rfl (fun _ h => h) rfl rfl
      fun hdis => ⟨rfl, (hd.disabled hdis).2⟩
  | .unlockRefresh, _, _, hr, h => by
    cases h
    refine same_kept hs hd ⟨rfl, rfl, rfl, rfl, rfl, rfl, rfl, rfl⟩ rfl rfl (fun _ h => h) rfl rfl fun hdis => ?_
    rw [show (after .unlockRefresh () g).disabled = g.disabled from rfl, hr.2] at hdis
    exact nomatch hdis
  | .lockSize, _, _, _, h | .lockShared, _, _, _, h => by
    obtain ⟨-, h⟩ := Option.ite_none_right_eq_some.1 h
    cases h
    exact same_kept hs hd ⟨rfl, rfl, rfl, rfl, rfl, rfl, rfl, rfl⟩ rfl rfl (fun _ h => h) rfl rfl hd.disabled
  | .getAttr, _, _, _, h => by
    cases h
    exact getAttr_kept hs hd
  | .setAttr change, _, hf, _, h => by
    unfold State.perform at h
    dsimp only at h
    split at h
    · next hok =>
      cases h
      exact setAttr_kept hs hd change (hf hok)
    · cases h
      exact unanswered_kept hs hd change
  | .takeAttr a, _, _, hr, h => by
    cases h
    exact takeAttr_kept hs hd hr
  | .worth, _, _, _, h => by
    cases h
    exact worth_kept hs hd
  | .disable, _, hf, hr, h => by
    unfold State.perform at h
    dsimp only at h
    rw [if_pos (show c.ok = true from hf)] at h
    cases h
    exact disable_kept hs hd hr
  | .adopt a, _, _, hr, h => by
    cases h
    exact adopt_kept hs hd hr.2.1 hr.2.2
  | .enable, _, _, hr, h => by
    cases h
    have hsame : Same s { s with disabled := false } := ⟨rfl, rfl, rfl, rfl, rfl, rfl, rfl, rfl⟩
    exact ⟨hsame.stamps hs nofun, hd.keep hsame.keeps rfl (fun _ h => h) rfl rfl nofun, hsame.keeps⟩
  | .grow append range, _, _, _, h => by
    cases h
    exact same_kept hs hd ⟨rfl, rfl, rfl, rfl, rfl, rfl, rfl, rfl⟩ rfl rfl (fun _ h => h) rfl rfl hd.disabled
  | .setSize size a, _, hf, hr, h => by
    cases h
    exact stamp_kept (n := { s.node.setStamp a with size }) hs hd hr.2 hf rfl rfl none
  | .setStamp a, _, hf, hr, h => by
    cases h
    exact stamp_kept (n := s.node.setStamp a) hs hd hr hf rfl rfl g.known
  | .closed a, _, hf, hr, h => by
    cases h
    exact closed_kept hs hd hr hf
  | .addOpen writable since quiet, _, _, hr, h => by
    cases h
    exact addOpen_kept hs hd hr.1 hr.2 rfl
  | .dropOpen writable, _, _, _, h => by
    cases h
    cases writable with
    | false => exact same_kept hs hd ⟨rfl, rfl, rfl, rfl, rfl, rfl, rfl, rfl⟩ rfl rfl (fun _ h => h) rfl rfl hd.disabled
    | true =>
      have hk : Keeps s { s with node := { s.node with writers := s.node.writers - 1 } } :=
        ⟨le_refl _, fun _ h => h, le_refl _, fun _ hw => by show s.node.writers - 1 = 0; rw [hw], fun _ _ hc => hc,
          fun _ _ hst => .inl hst⟩
      exact ⟨⟨hs.host, hs.past, hs.told, hs.stamp, hs.empty, hs.pages, hs.opened⟩,
        hd.keep hk rfl (fun _ h => h) rfl rfl hd.disabled, hk⟩
  | .giveCookie writable, _, _, _, h => by
    cases h
    cases writable <;> exact same_kept hs hd ⟨rfl, rfl, rfl, rfl, rfl, rfl, rfl, rfl⟩ rfl rfl (fun _ h => h) rfl rfl hd.disabled
  | .write clip range, _, hf, _, h => by
    cases h
    split
    · next hok =>
      have hk := setHost_keeps s c.attr
      exact ⟨setHost_stamps hs (hf hok), hd.keep hk rfl (fun _ h => h) rfl rfl hd.disabled, hk⟩
    · exact same_kept hs hd ⟨rfl, rfl, rfl, rfl, rfl, rfl, rfl, rfl⟩ rfl rfl (fun _ h => h) rfl rfl hd.disabled
  | .unlockSize, _, _, _, h | .unlockShared, _, _, _, h | .fresh, _, _, _, h | .getSize, _, _, _, h | .other, _, _, _, h => by
    cases h
    exact same_kept hs hd ⟨rfl, rfl, rfl, rfl, rfl, rfl, rfl, rfl⟩ rfl rfl (fun _ h => h) rfl rfl hd.disabled

theorem perform_disabled {c : Choice} {a : Act} {r : Answer a} (hr : ready a g) (hdis : s.disabled = true)
    (h : s.perform i c a = some (s', r)) : s'.disabled = true ∨ g.disabled = true := by
  unfold State.perform at h
  cases a <;> dsimp only at h
  case enable => exact .inr hr
  case setAttr change =>
    refine .inl ?_
    cases change <;> (split at h <;> (obtain ⟨rfl, -⟩ := Prod.mk.inj (Option.some.inj h); exact hdis))
  all_goals
    refine .inl ?_
    (repeat' split at h) <;> first
      | (obtain ⟨rfl, -⟩ := Prod.mk.inj (Option.some.inj h); first | exact hdis | rfl)
      | exact nomatch h

theorem Kept.others {c : Choice} {a : Act} {r : Answer a} {j : Nat} {x : Debt} (hk : Keeps s s') (hr : ready a g)
    (h : s.perform i c a = some (s', r)) (hg : Sized s i g) (hd : Dated s g) (hj : j ≠ i) (hx : Sized s j x) (hdx : Dated s x) :
    Dated s' x := by
  refine hdx.keep hk rfl (fun _ h => h) rfl rfl fun hdis => ⟨(hdx.disabled hdis).1, ?_⟩
  rcases perform_disabled hr (hdx.disabled hdis).2 h with h | h
  · exact h
  · have hlock := hg.refresh (hd.disabled h).1
    rw [hx.refresh (hdx.disabled hdis).1] at hlock
    exact absurd (Option.some.inj hlock) hj

end

/-! ## Every run -/

structure Upheld (s : State) (gs : List Debt) : Prop where
  reach : Reach s gs
  stamps : Stamps s
  each : ∀ (i : Nat) (g : Debt), gs[i]? = some g → Dated s g

theorem debtOf_dated {s : State} (hook : Start) : Dated s (debtOf s hook) := by
  have hnone (x : Option (Nat × Option Nat)) (hx : ∀ v q, x = some (v, q) → v ≤ s.host.version ∧
      ∀ n, q = some n → n ≤ s.writerOpens ∧ (n = s.writerOpens → s.node.writers = 0)) : Dated s { since := x } :=
    ⟨nofun, nofun, hx, nofun, nofun⟩
  cases hook with
  | openFile writable truncate =>
    refine hnone _ fun v q hv => ?_
    cases hv
    refine ⟨le_refl _, fun n hn => ?_⟩
    obtain ⟨hw, hn⟩ := Option.ite_none_right_eq_some.1 hn
    exact ⟨(Option.some.inj hn).ge, fun _ => hw⟩
  | _ => exact hnone none nofun

theorem start_same {m : Mount} {s s' : State} {hook : Start} (hs : s.start m hook = some s') :
    Same s s' ∧ s'.disabled = s.disabled := by
  rw [(start_starts hs).rest]
  exact ⟨⟨rfl, rfl, rfl, rfl, rfl, rfl, rfl, rfl⟩, rfl⟩

/-- **A fine step** keeps the invariant. -/
theorem step_upheld {m : Mount} {s s' : State} {e : Event} (h : ∃ gs, Upheld s gs) (hf : Fine s e) (hs : s.step m e = some s') :
    ∃ gs, Upheld s' gs := by
  obtain ⟨gs, hreach, hstamps, heach⟩ := h
  cases e with
  | start hook =>
    obtain ⟨hsame, hdis⟩ := start_same hs
    have hkeep (g : Debt) (hd : Dated s g) : Dated s' g :=
      hd.keep hsame.keeps rfl (fun _ h => h) rfl rfl (by rw [hdis]; exact hd.disabled)
    exact ⟨_, start_reach hreach hs, hsame.stamps hstamps (by rw [hdis]; exact hstamps.empty),
      each_append heach (hkeep _ (debtOf_dated hook)) fun _ g hd => hkeep g hd⟩
  | act i c =>
    obtain ⟨a, k, s1, r, hi, hp, rfl⟩ := step_act hs
    obtain ⟨g, hg, hready, hnext⟩ := act_reach hreach hi hp
    have hfine : FineAct s c a := by
      unfold Fine at hf
      dsimp only at hf
      rw [hi] at hf
      exact hf
    have hkept := perform_kept hstamps (heach i g hg) hfine hready hp
    have hsame : Same s1 { s1 with threads := s1.threads.set i (k r) } := ⟨rfl, rfl, rfl, rfl, rfl, rfl, rfl, rfl⟩
    have hkeep (x : Debt) (hd : Dated s1 x) : Dated { s1 with threads := s1.threads.set i (k r) } x :=
      hd.keep hsame.keeps rfl (fun _ h => h) rfl rfl hd.disabled
    refine ⟨_, hnext, hsame.stamps hkept.stamps hkept.stamps.empty, fun j x hx => hkeep x ?_⟩
    have hsized := hreach.each
    -- the others' locks are needed for the one who enables the cache
    refine each_set (H := fun j x => Sized s j x ∧ Dated s x) (K := fun _ x => Dated s1 x)
      (fun j x hx => ⟨hsized j x hx, heach j x hx⟩) hkept.own (fun j x hj hx => ?_) j x hx
    exact Kept.others hkept.keeps hready hp (hsized i g hg) (heach i g hg) hj hx.1 hx.2
  | host attr =>
    cases hs
    have hk : Keeps s (s.setHost ⟨attr, s.host.version + 1⟩) :=
      ⟨Nat.le_succ _, fun _ ha => mem_cons_of_mem _ ha, le_refl _, fun _ hw => hw, fun _ _ hc => hc, fun _ _ hst => .inl hst⟩
    refine ⟨gs, hreach.around _ _ _, ⟨mem_cons_self, fun a ha => ?_, ?_, mem_cons_of_mem _ hstamps.stamp,
      hstamps.empty, hstamps.pages, hstamps.opened.1.trans (Nat.le_succ _), hstamps.opened.2⟩, fun i g hg => ?_⟩
    · rcases mem_cons.1 ha with rfl | ha
      · exact le_refl _
      · exact (hstamps.past a ha).trans (Nat.le_succ _)
    · exact told_cons hstamps.told fun a ha heq => absurd heq (hf a ha)
    · exact (heach i g hg).keep hk rfl (fun _ h => h) rfl rfl (heach i g hg).disabled
  | fill =>
    obtain ⟨hdis, hs⟩ := Option.ite_none_right_eq_some.1 hs
    cases hs
    have hcur (v : Nat) (hv : v ≤ s.host.version) (hc : Current s v) :
        Current { s with pages := s.host.version :: s.pages } v := fun p hp => by
      rcases mem_cons.1 hp with rfl | hp
      · exact hv
      · exact hc p hp
    have hk : Keeps s { s with pages := s.host.version :: s.pages } :=
      ⟨le_refl _, fun _ ha => ha, le_refl _, fun _ hw => hw, hcur, fun _ _ hst => .inl hst⟩
    refine ⟨gs, hreach.around _ _ _, ⟨hstamps.host, hstamps.past, hstamps.told, hstamps.stamp, fun h => ?_,
      hcur _ (hstamps.past _ hstamps.stamp) hstamps.pages, hstamps.opened.1, hcur _ hstamps.opened.1 hstamps.opened.2⟩, fun i g hg => ?_⟩
    · rw [hdis] at h
      exact nomatch h
    · exact (heach i g hg).keep hk rfl (fun _ h => h) rfl rfl (heach i g hg).disabled
  | evict n =>
    cases hs
    have hcur (v : Nat) (hc : Current s v) : Current { s with pages := s.pages.eraseIdx n } v :=
      fun p hp => hc p (mem_of_mem_eraseIdx hp)
    have hk : Keeps s { s with pages := s.pages.eraseIdx n } :=
      ⟨le_refl _, fun _ ha => ha, le_refl _, fun _ hw => hw, fun v _ => hcur v, fun _ _ hst => .inl hst⟩
    refine ⟨gs, hreach.around _ _ _, ⟨hstamps.host, hstamps.past, hstamps.told, hstamps.stamp, fun h => ?_,
      hcur _ hstamps.pages, hstamps.opened.1, hcur _ hstamps.opened.2⟩, fun i g hg => ?_⟩
    · show s.pages.eraseIdx n = []
      rw [hstamps.empty h]
      rfl
    · exact (heach i g hg).keep hk rfl (fun _ h => h) rfl rfl (heach i g hg).disabled

theorem upheld_initial (attr : Attr) : Upheld (State.initial attr) [] where
  reach := reach_initial attr
  stamps := by
    have hone (a : Seen) (ha : a ∈ (State.initial attr).past) : a = ⟨attr, 0⟩ := mem_singleton.1 ha
    refine ⟨mem_cons_self, fun a ha => ?_, fun a ha b hb _ => ?_, mem_cons_self, fun _ => rfl,
      fun _ hp => absurd hp not_mem_nil, le_refl _, fun _ hp => absurd hp not_mem_nil⟩
    · rw [hone a ha]
      exact le_refl _
    · rw [hone a ha, hone b hb]
  each := fun _ _ h => nomatch h

/-- **In every run of fine steps** the cache is good after an open. -/
theorem fresh_after_open (m : Mount) (attr : Attr) (events : List Event) (s : State)
    (hfine : Runs.Along (State.step m) Fine (State.initial attr) events)
    (hrun : Runs.run (State.step m) (State.initial attr) events = some s) : Fresh s := by
  obtain ⟨gs, h⟩ := Runs.run_inv (I := fun s => ∃ gs, Upheld s gs) (Q := Fine)
    (fun _ _ _ hi hq hs => step_upheld hi hq hs) ⟨[], upheld_initial attr⟩ hfine hrun
  exact ⟨h.stamps.opened.2, h.stamps.pages⟩

/-- The file is read and left, changed by the host, opened again and read, made executable, and opened and closed by a writer. -/
def readAgain : List Event :=
  .start (.openFile false false) :: List.replicate 5 (.act 0 {}) ++ .fill :: .host ⟨1, 0, 1⟩ ::
  .start (.openFile false false) :: List.replicate 14 (.act 1 {}) ++ .fill ::
  .start (.writeStat none true false) :: List.replicate 2 (.act 2 {}) ++
  .start (.openFile true false) :: List.replicate 6 (.act 3 {}) ++ .start (.close true) :: List.replicate 3 (.act 4 {})

theorem readAgain_runs : (Runs.run (State.step writableMount) (State.initial ⟨0, 0, 0⟩) readAgain).isSome = true := by
  decide

theorem readAgain_fresh : Fresh ((Runs.run (State.step writableMount) (State.initial ⟨0, 0, 0⟩) readAgain).get readAgain_runs) :=
  fresh_after_open writableMount ⟨0, 0, 0⟩ readAgain _ (by decide) (Option.some_get readAgain_runs).symm

/-- A step as it is promised: no page is mapped, and the host's changes show in the attributes. -/
def Promised (s : State) : Event → Prop
  | .host attr => attr ≠ s.host.attr
  | .act i c =>
    match s.threads[i]? with
    | some (.act .disable _) => c.ok = true
    | _ => True
  | _ => True

instance (s : State) : (e : Event) → Decidable (Promised s e)
  | .host attr => inferInstanceAs (Decidable (attr ≠ s.host.attr))
  | .act i c => by
    unfold Promised
    dsimp only
    split <;> infer_instance
  | .start _ => isTrue trivial
  | .fill => isTrue trivial
  | .evict _ => isTrue trivial

/-- The host changes a file of which a page is cached, then the guest makes it executable, and opens it. -/
def absorbed : List Event :=
  .start (.openFile false false) :: List.replicate 5 (.act 0 {}) ++ .fill :: .host ⟨1, 0, 1⟩ ::
  .start (.writeStat none true false) :: List.replicate 2 (.act 1 {}) ++
  .start (.openFile false false) :: List.replicate 5 (.act 2 {})

theorem absorbed_runs : (Runs.run (State.step writableMount) (State.initial ⟨0, 0, 0⟩) absorbed).isSome = true := by
  decide

/-- The page from before is served, and the stamp is that of the change. -/
theorem chmod_absorbs : ¬ ∀ (m : Mount) (attr : Attr) (events : List Event) (s : State),
    Runs.Along (State.step m) Promised (State.initial attr) events →
    Runs.run (State.step m) (State.initial attr) events = some s → Fresh s := by
  intro h
  have hserved := (h writableMount ⟨0, 0, 0⟩ absorbed _ (by decide) (Option.some_get absorbed_runs).symm).served
  revert hserved
  decide

end HostfsCache
end Prose
