import Prose.Runs
import Prose.FileCacheDebts
/-!
# FileCacheSizes — every change of the size has the file to itself

Who has `sizeLock` is alone with the size, and who has it shared finds it as it was.  So a write reserves from the size it has
read, what is written back ends inside the file, and no request of a `write_pages` is left when a truncation reaches the host.
The ranges that appends have reserved end at the size until a truncation, or a refresh, which may find the host's file shorter.
-/
namespace Prose
namespace HostfsCache

open Tasks List
open HostfsFile (Mount Reply)

def Range.Apart (a b : Range) : Prop := a.stop ≤ b.pos ∨ b.stop ≤ a.pos

instance (a b : Range) : Decidable (a.Apart b) := inferInstanceAs (Decidable (_ ∨ _))

structure Sizes (s : State) : Prop where
  excl : s.sizeLock ≠ none → s.readers = []
  inside : ∀ r ∈ s.recent, r.pos ≤ r.stop ∧ r.stop ≤ s.node.size
  apart : s.recent.Pairwise Range.Apart

/-- A thread's locks are its own, and the size it has read under one is the size. -/
structure Sized (s : State) (i : Nat) (g : Debt) : Prop where
  refresh : g.refresh = true → s.refreshLock = some i
  write : g.write = true → s.sizeLock = some i
  read : g.read = true → i ∈ s.readers
  known : ∀ clip, g.known = some clip → (g.write = true ∨ g.read = true) ∧ clip = ⟨s.node.size, s.truncations⟩

structure Moved (s s' : State) (i : Nat) (g : Debt) : Prop where
  sizes : Sizes s'
  own : Sized s' i g
  others : ∀ j h, j ≠ i → Sized s j h → Sized s' j h

section
variable {s s' : State} {i : Nat} {g g' : Debt} (hs : Sizes s) (hg : Sized s i g)
include hs hg

theorem Moved.same (hlocks : s'.refreshLock = s.refreshLock ∧ s'.sizeLock = s.sizeLock ∧ s'.readers = s.readers)
    (hsize : s'.node.size = s.node.size ∧ s'.truncations = s.truncations ∧ s'.recent = s.recent)
    (hdebt : g'.refresh = g.refresh ∧ g'.write = g.write ∧ g'.read = g.read)
    (hknown : ∀ clip, g'.known = some clip → g.known = some clip) : Moved s s' i g' := by
  obtain ⟨hl1, hl2, hl3⟩ := hlocks
  obtain ⟨hs1, hs2, hs3⟩ := hsize
  obtain ⟨hd1, hd2, hd3⟩ := hdebt
  refine ⟨⟨?_, ?_, ?_⟩, ⟨?_, ?_, ?_, ?_⟩, fun j h _ hh => ⟨?_, ?_, ?_, ?_⟩⟩
  · rw [hl2, hl3]
    exact hs.excl
  · rw [hs1, hs3]
    exact hs.inside
  · rw [hs3]
    exact hs.apart
  · rw [hd1, hl1]
    exact hg.refresh
  · rw [hd2, hl2]
    exact hg.write
  · rw [hd3, hl3]
    exact hg.read
  · rw [hd2, hd3, hs1, hs2]
    exact fun clip hc => hg.known clip (hknown clip hc)
  · rw [hl1]
    exact hh.refresh
  · rw [hl2]
    exact hh.write
  · rw [hl3]
    exact hh.read
  · rw [hs1, hs2]
    exact hh.known

theorem unknown_to_others (hw : g.write = true) {j : Nat} {h : Debt} (hj : j ≠ i) (hh : Sized s j h) : h.known = none := by
  have hlock := hg.write hw
  cases hk : h.known with
  | none => rfl
  | some clip =>
    rcases (hh.known clip hk).1 with hwj | hr
    · rw [hh.write hwj] at hlock
      exact absurd (Option.some.inj hlock) hj
    · have := hh.read hr
      rw [hs.excl (by rw [hlock]; exact nofun)] at this
      exact absurd this not_mem_nil

theorem Moved.resize (hw : g.write = true) (hlocks : s'.refreshLock = s.refreshLock ∧ s'.sizeLock = s.sizeLock ∧ s'.readers = s.readers)
    (hdebt : g'.refresh = g.refresh ∧ g'.write = g.write ∧ g'.read = g.read) (hknown : g'.known = none)
    (hinside : ∀ r ∈ s'.recent, r.pos ≤ r.stop ∧ r.stop ≤ s'.node.size) (hapart : s'.recent.Pairwise Range.Apart) :
    Moved s s' i g' := by
  obtain ⟨hl1, hl2, hl3⟩ := hlocks
  obtain ⟨hd1, hd2, hd3⟩ := hdebt
  refine ⟨⟨?_, hinside, hapart⟩, ⟨?_, ?_, ?_, fun clip hc => ?_⟩, fun j h hj hh => ⟨?_, ?_, ?_, fun clip hc => ?_⟩⟩
  · rw [hl2, hl3]
    exact hs.excl
  · rw [hd1, hl1]
    exact hg.refresh
  · rw [hd2, hl2]
    exact hg.write
  · rw [hd3, hl3]
    exact hg.read
  · rw [hknown] at hc
    exact nomatch hc
  · rw [hl1]
    exact hh.refresh
  · rw [hl2]
    exact hh.write
  · rw [hl3]
    exact hh.read
  · rw [unknown_to_others hs hg hw hj hh] at hc
    exact nomatch hc

/-! ### The locks -/

theorem lockRefresh_moved (hfree : s.refreshLock = none) : Moved s { s with refreshLock := some i } i { g with refresh := true } := by
  refine ⟨⟨hs.excl, hs.inside, hs.apart⟩, ⟨fun _ => rfl, hg.write, hg.read, hg.known⟩, fun j h _ hh =>
    ⟨fun hr => ?_, hh.write, hh.read, hh.known⟩⟩
  have := hh.refresh hr
  rw [hfree] at this
  exact nomatch this

theorem unlockRefresh_moved (hr : g.refresh = true) : Moved s { s with refreshLock := none } i { g with refresh := false } := by
  have hlock := hg.refresh hr
  refine ⟨⟨hs.excl, hs.inside, hs.apart⟩, ⟨nofun, hg.write, hg.read, hg.known⟩, fun j h hj hh =>
    ⟨fun hr => ?_, hh.write, hh.read, hh.known⟩⟩
  rw [hh.refresh hr] at hlock
  exact absurd (Option.some.inj hlock) hj

theorem lockSize_moved (hfree : s.sizeLock = none) (hnone : s.readers = []) :
    Moved s { s with sizeLock := some i } i { g with write := true } := by
  refine ⟨⟨fun _ => hnone, hs.inside, hs.apart⟩, ⟨hg.refresh, fun _ => rfl, hg.read, fun clip hc =>
    ⟨.inl rfl, (hg.known clip hc).2⟩⟩, fun j h _ hh => ⟨hh.refresh, fun hw => ?_, hh.read, hh.known⟩⟩
  have := hh.write hw
  rw [hfree] at this
  exact nomatch this

theorem unlockSize_moved (hw : g.write = true) :
    Moved s { s with sizeLock := none } i { g with write := false, known := none } := by
  have hlock := hg.write hw
  refine ⟨⟨fun h => absurd rfl h, hs.inside, hs.apart⟩, ⟨hg.refresh, nofun, hg.read, nofun⟩, fun j h hj hh =>
    ⟨hh.refresh, fun hw => ?_, hh.read, hh.known⟩⟩
  rw [hh.write hw] at hlock
  exact absurd (Option.some.inj hlock) hj

theorem lockShared_moved (hfree : s.sizeLock = none) :
    Moved s { s with readers := i :: s.readers } i { g with read := true } := by
  refine ⟨⟨fun h => absurd hfree h, hs.inside, hs.apart⟩, ⟨hg.refresh, hg.write, fun _ => mem_cons_self, fun clip hc =>
    ⟨.inr rfl, (hg.known clip hc).2⟩⟩, fun j h _ hh => ⟨hh.refresh, hh.write, fun hr => ?_, hh.known⟩⟩
  exact mem_cons_of_mem _ (hh.read hr)

theorem unlockShared_moved :
    Moved s { s with readers := s.readers.erase i } i { g with read := false, known := none } := by
  refine ⟨⟨fun h => ?_, hs.inside, hs.apart⟩, ⟨hg.refresh, hg.write, nofun, nofun⟩, fun j h hj hh =>
    ⟨hh.refresh, hh.write, fun hr => ?_, hh.known⟩⟩
  · show s.readers.erase i = []
    rw [hs.excl h]
    rfl
  · exact (mem_erase_of_ne hj).2 (hh.read hr)

theorem getSize_moved : Moved s s i
    { g with known := if g.write || g.read then some ⟨s.node.size, s.truncations⟩ else none } := by
  refine ⟨hs, ⟨hg.refresh, hg.write, hg.read, fun clip hc => ?_⟩, fun _ _ _ hh => hh⟩
  obtain ⟨hlock, hc⟩ := Option.ite_none_right_eq_some.1 hc
  exact ⟨Bool.or_eq_true_iff.1 hlock, (Option.some.inj hc).symm⟩

/-- **A write makes the file longer**, and what it reserves as an append begins at the size. -/
theorem grow_moved {append : Bool} {range : Range} (hr : ready (.grow append range) g) :
    Moved s { s with
      node := { s.node with size := range.stop }
      appends := if append then range :: s.appends else s.appends
      recent := if append then range :: s.recent else s.recent } i { g with known := none } := by
  obtain ⟨hw, clip, hk, hlt, hle, happend⟩ := hr
  have hclip : clip.size = s.node.size := by rw [(hg.known clip hk).2]
  have hinside (r : Range) (h : r ∈ s.recent) : r.pos ≤ r.stop ∧ r.stop ≤ range.stop := by
    have := hs.inside r h
    omega
  cases append with
  | false => exact Moved.resize hs hg hw ⟨rfl, rfl, rfl⟩ ⟨rfl, rfl, rfl⟩ rfl hinside hs.apart
  | true =>
    refine Moved.resize hs hg hw ⟨rfl, rfl, rfl⟩ ⟨rfl, rfl, rfl⟩ rfl (fun r h => ?_) (pairwise_cons.2 ⟨fun r h => ?_, hs.apart⟩)
    · rcases mem_cons.1 h with rfl | h
      · exact ⟨hle, le_refl _⟩
      · exact hinside r h
    · have := (hs.inside r h).2
      rw [← hclip, ← happend rfl] at this
      exact .inr this

end

theorem requested_moved {s : State} {i : Nat} {g : Debt} (hs : Sizes s) (hg : Sized s i g) {a : Option Seen} :
    ∀ (change : Change), ready (.setAttr change) g → Moved s (s.requested change) i { g with reply := a, known := none }
  | .mode, _ => Moved.same hs hg ⟨rfl, rfl, rfl⟩ ⟨rfl, rfl, rfl⟩ ⟨rfl, rfl, rfl⟩ nofun
  | .times, _ => Moved.same hs hg ⟨rfl, rfl, rfl⟩ ⟨rfl, rfl, rfl⟩ ⟨rfl, rfl, rfl⟩ nofun
  | .size _, hw => Moved.resize hs hg hw ⟨rfl, rfl, rfl⟩ ⟨rfl, rfl, rfl⟩ rfl hs.inside hs.apart

theorem Moved.setHost {s s' : State} {i : Nat} {g : Debt} (h : Moved s s' i g) (host : Seen) : Moved s (s'.setHost host) i g :=
  ⟨⟨h.sizes.excl, h.sizes.inside, h.sizes.apart⟩, ⟨h.own.refresh, h.own.write, h.own.read, h.own.known⟩,
    fun j x hj hx => have hx := h.others j x hj hx
      ⟨hx.refresh, hx.write, hx.read, hx.known⟩⟩

theorem Node.takeAttr_size (n : Node) (a : Seen) : (n.takeAttr a).size = n.size := by
  unfold takeAttr
  dsimp only
  split_ifs <;> rfl

theorem Node.closed_size (n : Node) (a : Seen) : (n.closed a).size = n.size := by
  unfold closed
  split_ifs <;> rfl

/-- **Every action keeps the sizes**, and what the others know of them. -/
theorem perform_moved {s s' : State} {i : Nat} {c : Choice} {g : Debt} (hs : Sizes s) (hg : Sized s i g) : ∀ {a : Act} {r : Answer a},
    ready a g → s.perform i c a = some (s', r) → Moved s s' i (after a r g)
  | .lockRefresh, _, _, h => by
    obtain ⟨hfree, h⟩ := Option.ite_none_right_eq_some.1 h
    cases h
    exact lockRefresh_moved hs hg hfree
  | .unlockRefresh, _, hr, h => by
    cases h
    exact unlockRefresh_moved hs hg hr.1
  | .lockSize, _, _, h => by
    obtain ⟨hfree, h⟩ := Option.ite_none_right_eq_some.1 h
    cases h
    exact lockSize_moved hs hg hfree.1 hfree.2
  | .unlockSize, _, hr, h => by
    cases h
    exact unlockSize_moved hs hg hr
  | .lockShared, _, _, h => by
    obtain ⟨hfree, h⟩ := Option.ite_none_right_eq_some.1 h
    cases h
    exact lockShared_moved hs hg hfree
  | .unlockShared, _, _, h => by
    cases h
    exact unlockShared_moved hs hg
  | .setAttr change, _, hr, h => by
    unfold State.perform at h
    dsimp only at h
    split at h
    · cases h
      exact (requested_moved hs hg change hr).setHost _
    · cases h
      exact requested_moved hs hg change hr
  | .takeAttr a, _, _, h => by
    cases h
    exact Moved.same hs hg ⟨rfl, rfl, rfl⟩ ⟨s.node.takeAttr_size a, rfl, rfl⟩ ⟨rfl, rfl, rfl⟩ fun _ hc => hc
  | .disable, _, _, h => by
    unfold State.perform at h
    dsimp only at h
    split at h
    · cases h
      exact Moved.same hs hg ⟨rfl, rfl, rfl⟩ ⟨rfl, rfl, rfl⟩ ⟨rfl, rfl, rfl⟩ fun _ hc => hc
    · cases h
      exact Moved.same hs hg ⟨rfl, rfl, rfl⟩ ⟨rfl, rfl, rfl⟩ ⟨rfl, rfl, rfl⟩ fun _ hc => hc
  | .adopt a, _, hr, h => by
    cases h
    exact Moved.resize hs hg hr.1 ⟨rfl, rfl, rfl⟩ ⟨rfl, rfl, rfl⟩ rfl (fun _ hm => absurd hm not_mem_nil) .nil
  | .getSize, _, _, h => by
    cases h
    exact getSize_moved hs hg
  | .grow append range, _, hr, h => by
    cases h
    exact grow_moved hs hg hr
  | .setSize size a, _, hr, h => by
    cases h
    exact Moved.resize hs hg hr.1 ⟨rfl, rfl, rfl⟩ ⟨rfl, rfl, rfl⟩ rfl (fun _ hm => absurd hm not_mem_nil) .nil
  | .closed a, _, _, h => by
    cases h
    exact Moved.same hs hg ⟨rfl, rfl, rfl⟩ ⟨s.node.closed_size a, rfl, rfl⟩ ⟨rfl, rfl, rfl⟩ fun _ hc => hc
  | .addOpen writable since quiet, _, _, h => by
    cases h
    dsimp only
    split_ifs <;> exact Moved.same hs hg ⟨rfl, rfl, rfl⟩ ⟨rfl, rfl, rfl⟩ ⟨rfl, rfl, rfl⟩ fun _ hc => hc
  | .dropOpen writable, _, _, h | .giveCookie writable, _, _, h => by
    cases h
    cases writable <;> exact Moved.same hs hg ⟨rfl, rfl, rfl⟩ ⟨rfl, rfl, rfl⟩ ⟨rfl, rfl, rfl⟩ fun _ hc => hc
  | .write clip range, _, _, h => by
    cases h
    split_ifs <;> exact Moved.same hs hg ⟨rfl, rfl, rfl⟩ ⟨rfl, rfl, rfl⟩ ⟨rfl, rfl, rfl⟩ fun _ hc => hc
  | .fresh, _, _, h | .getAttr, _, _, h | .worth, _, _, h | .enable, _, _, h | .setStamp a, _, _, h | .other, _, _, h => by
    cases h
    exact Moved.same hs hg ⟨rfl, rfl, rfl⟩ ⟨rfl, rfl, rfl⟩ ⟨rfl, rfl, rfl⟩ fun _ hc => hc

/-! ## Every run -/

theorem perform_threads {s s' : State} {i : Nat} {c : Choice} {a : Act} {r : Answer a} (h : s.perform i c a = some (s', r)) :
    s'.threads = s.threads := by
  unfold State.perform at h
  cases a <;> dsimp only at h
  case setAttr change =>
    cases change <;> (split at h <;> (obtain ⟨rfl, -⟩ := Prod.mk.inj (Option.some.inj h); rfl))
  all_goals (repeat' split at h) <;> first | (obtain ⟨rfl, -⟩ := Prod.mk.inj (Option.some.inj h); rfl) | exact nomatch h

def Owed (s : State) (gs : List Debt) : Prop := Owes ready after (fun _ _ => True) Debt.Clear s.threads gs

structure Reach (s : State) (gs : List Debt) : Prop where
  sizes : Sizes s
  each : ∀ i g, gs[i]? = some g → Sized s i g
  owes : Owed s gs

structure Starts (s s' : State) (g : Debt) : Prop where
  hook : ∃ hook : Hook Unit, Owing hook g ∧ s'.threads = s.threads ++ [hook]
  rest : s' = { s with threads := s'.threads, cookies := s'.cookies }

theorem Starts.owed {s s' : State} {gs : List Debt} {g : Debt} (h : Starts s s' g) (ho : Owed s gs) : Owed s' (gs ++ [g]) := by
  obtain ⟨hook, howing, hthreads⟩ := h.hook
  unfold Owed
  rw [hthreads]
  exact ho.append howing

/-- **Every hook owes nothing in the end.** -/
theorem start_starts {m : Mount} {s s' : State} : ∀ {hook : Start}, s.start m hook = some s' → Starts s s' (debtOf s hook)
  | .lookup, h => by
    cases h
    exact ⟨⟨_, lookup_owing, rfl⟩, rfl⟩
  | .readStat, h => by
    cases h
    exact ⟨⟨_, readStat_owing, rfl⟩, rfl⟩
  | .openFile writable truncate, h => by
    cases h
    exact ⟨⟨_, openFile_owing m writable truncate _ _, rfl⟩, rfl⟩
  | .close writable, h => by
    obtain ⟨-, h⟩ := Option.ite_none_right_eq_some.1 h
    cases h
    exact ⟨⟨_, close_owing writable, rfl⟩, rfl⟩
  | .freeCookie writable, h => by
    obtain ⟨-, h⟩ := Option.ite_none_right_eq_some.1 h
    cases h
    exact ⟨⟨_, freeCookie_owing writable, rfl⟩, rfl⟩
  | .writeStat size mode times, h => by
    cases h
    exact ⟨⟨_, writeStat_owing m size mode times, rfl⟩, rfl⟩
  | .write append pos length, h => by
    obtain ⟨-, h⟩ := Option.ite_none_right_eq_some.1 h
    cases h
    exact ⟨⟨_, write_owing m append pos length, rfl⟩, rfl⟩
  | .writePages pos vecs requested, h => by
    cases h
    exact ⟨⟨_, writePages_owing m pos vecs requested, rfl⟩, rfl⟩

theorem debtOf_clear (s : State) : ∀ hook : Start, (debtOf s hook).Clear ∧ (debtOf s hook).known = none
  | .lookup | .readStat | .openFile _ _ | .close _ | .freeCookie _ | .writeStat _ _ _ | .write _ _ _ | .writePages _ _ _ =>
    ⟨⟨rfl, rfl, rfl, rfl⟩, rfl⟩

theorem Sized.clear {s : State} {i : Nat} {g : Debt} (h : g.Clear) (hk : g.known = none) : Sized s i g where
  refresh := fun hr => by rw [h.refresh] at hr; exact nomatch hr
  write := fun hw => by rw [h.write] at hw; exact nomatch hw
  read := fun hr => by rw [h.read] at hr; exact nomatch hr
  known := fun clip hc => by rw [hk] at hc; exact nomatch hc

theorem Sized.of_rest {s s' : State} {j : Nat} {h : Debt} (hrest : s' = { s with threads := s'.threads, cookies := s'.cookies })
    (hh : Sized s j h) : Sized s' j h := by
  rw [hrest]
  exact ⟨hh.refresh, hh.write, hh.read, hh.known⟩

theorem start_reach {m : Mount} {s s' : State} {gs : List Debt} {hook : Start} (h : Reach s gs) (hs : s.start m hook = some s') :
    Reach s' (gs ++ [debtOf s hook]) := by
  have hstart := start_starts hs
  obtain ⟨hclear, hknown⟩ := debtOf_clear s hook
  refine ⟨?_, each_append h.each (Sized.clear hclear hknown) (fun _ _ => Sized.of_rest hstart.rest), hstart.owed h.owes⟩
  rw [hstart.rest]
  exact ⟨h.sizes.excl, h.sizes.inside, h.sizes.apart⟩

theorem act_reach {s s1 : State} {gs : List Debt} {i : Nat} {c : Choice} {a : Act} {k : Answer a → Hook Unit} {r : Answer a}
    (h : Reach s gs) (hi : s.threads[i]? = some (.act a k)) (hp : s.perform i c a = some (s1, r)) :
    ∃ g, gs[i]? = some g ∧ ready a g ∧ Reach { s1 with threads := s1.threads.set i (k r) } (gs.set i (after a r g)) := by
  obtain ⟨g, hg, hhonest, hset⟩ := h.owes.step hi
  obtain ⟨hsizes, hown, hothers⟩ := perform_moved h.sizes (h.each i g hg) hhonest.1 hp
  have hthreads : s1.threads = s.threads := perform_threads hp
  refine ⟨g, hg, hhonest.1, ⟨hsizes.excl, hsizes.inside, hsizes.apart⟩,
    each_set h.each ⟨hown.refresh, hown.write, hown.read, hown.known⟩ (fun j x hj hx => ?_), ?_⟩
  · have hx := hothers j x hj hx
    exact ⟨hx.refresh, hx.write, hx.read, hx.known⟩
  · show Owes _ _ _ _ (s1.threads.set i (k r)) _
    rw [hthreads]
    exact hset (hhonest.2 r trivial)

theorem Reach.around {s : State} {gs : List Debt} (h : Reach s gs) (host : Seen) (past : List Seen) (pages : List Nat) :
    Reach { s with host, past, pages } gs :=
  ⟨⟨h.sizes.excl, h.sizes.inside, h.sizes.apart⟩, fun i g hg => have hx := h.each i g hg
    ⟨hx.refresh, hx.write, hx.read, hx.known⟩, h.owes⟩

theorem step_act {m : Mount} {s s' : State} {i : Nat} {c : Choice} (hs : s.step m (.act i c) = some s') :
    ∃ (a : Act) (k : Answer a → Hook Unit) (s1 : State) (r : Answer a), s.threads[i]? = some (.act a k) ∧
      s.perform i c a = some (s1, r) ∧ s' = { s1 with threads := s1.threads.set i (k r) } := by
  unfold State.step at hs
  dsimp only at hs
  split at hs
  · next a k hi =>
    obtain ⟨⟨s1, r⟩, hp, rfl⟩ := Option.map_eq_some_iff.1 hs
    exact ⟨a, k, s1, r, hi, hp, rfl⟩
  · exact nomatch hs

/-- **Whatever happens**: one hook more, one action, or what the host and the kernel do. -/
theorem step_reach {m : Mount} {s s' : State} {e : Event} (h : ∃ gs, Reach s gs) (hs : s.step m e = some s') :
    ∃ gs, Reach s' gs := by
  obtain ⟨gs, h⟩ := h
  cases e with
  | start hook => exact ⟨_, start_reach h hs⟩
  | act i c =>
    obtain ⟨a, k, s1, r, hi, hp, rfl⟩ := step_act hs
    obtain ⟨g, -, -, hreach⟩ := act_reach h hi hp
    exact ⟨_, hreach⟩
  | host attr =>
    cases hs
    exact ⟨gs, h.around _ _ _⟩
  | fill =>
    obtain ⟨-, hs⟩ := Option.ite_none_right_eq_some.1 hs
    cases hs
    exact ⟨gs, h.around _ _ _⟩
  | evict n =>
    cases hs
    exact ⟨gs, h.around _ _ _⟩

def Permitted (s : State) : Act → Prop
  | .grow append range => s.node.size < range.stop ∧ (append = true → range.pos = s.node.size)
  | .write clip range => range.stop ≤ s.node.size ∧ clip.truncations = s.truncations
  | _ => True

/-- **The size changes are serialised**: the ranges of these appends are apart, and whoever acts next makes the file longer, as
an append from its end, or writes back what is inside the file and was clipped after the last truncation. -/
structure Serialised (appends : State → List Range) (s : State) : Prop where
  apart : (appends s).Pairwise Range.Apart
  permitted : ∀ (i : Nat) (a : Act) (k : Answer a → Hook Unit), s.threads[i]? = some (.act a k) → Permitted s a

theorem Reach.serialised {s : State} {gs : List Debt} (h : Reach s gs) : Serialised State.recent s := by
  refine ⟨h.sizes.apart, fun i a k hi => ?_⟩
  obtain ⟨g, hg, hhonest, -⟩ := h.owes.step hi
  have hsized := h.each i g hg
  cases a with
  | grow append range =>
    obtain ⟨-, clip, hk, hlt, -, happend⟩ := hhonest.1
    obtain ⟨-, rfl⟩ := hsized.known clip hk
    exact ⟨hlt, happend⟩
  | write clip range =>
    obtain ⟨hk, hle⟩ := hhonest.1
    obtain ⟨-, rfl⟩ := hsized.known clip hk
    exact ⟨hle, rfl⟩
  | _ => trivial

theorem reach_initial (attr : Attr) : Reach (State.initial attr) [] where
  sizes := ⟨fun h => absurd rfl h, fun _ h => absurd h not_mem_nil, .nil⟩
  each := fun _ _ h => nomatch h
  owes := .nil

/-- **In every state of every run**, with the appends since the last truncation or refresh. -/
theorem sizes_serialised (m : Mount) (attr : Attr) (events : List Event) (s : State)
    (hrun : Runs.run (State.step m) (State.initial attr) events = some s) : Serialised State.recent s := by
  obtain ⟨gs, h⟩ := Runs.run_inv (I := fun s => ∃ gs, Reach s gs) (Q := fun _ _ => True)
    (fun _ _ _ hi _ hs => step_reach hi hs) ⟨[], reach_initial attr⟩ (Runs.along_iff.2 fun _ _ _ _ _ _ => trivial) hrun
  exact h.serialised

def writableMount : Mount := ⟨false, 131072, 131072, by decide, by decide⟩

/-- A file is written to and closed, the host cuts it, and the next append begins where the host's file now ends. -/
def appendsTwice : List Event :=
  .start (.openFile true false) :: List.replicate 6 (.act 0 {}) ++
  .start (.write true 0 10) :: List.replicate 6 (.act 1 {}) ++
  .start (.writePages 0 [10] 10) :: List.replicate 5 (.act 2 { attr := ⟨1, 0, 10⟩, reply := ⟨true, 10⟩ }) ++
  .start (.close true) :: List.replicate 3 (.act 3 {}) ++
  .start (.freeCookie true) :: .act 4 {} ::
  .host ⟨2, 0, 4⟩ ::
  .start (.openFile true false) :: List.replicate 15 (.act 5 {}) ++
  .start (.write true 0 3) :: List.replicate 6 (.act 6 {})

theorem appendsTwice_runs : (Runs.run (State.step writableMount) (State.initial ⟨0, 0, 0⟩) appendsTwice).isSome = true := by
  decide +kernel

theorem appendsTwice_serialised : Serialised State.recent
    ((Runs.run (State.step writableMount) (State.initial ⟨0, 0, 0⟩) appendsTwice).get appendsTwice_runs) :=
  sizes_serialised writableMount ⟨0, 0, 0⟩ appendsTwice _ (Option.some_get appendsTwice_runs).symm

/-- With the appends since the last truncation it is not so: a refresh takes the size from the host. -/
theorem refresh_shortens : ¬ ∀ (m : Mount) (attr : Attr) (events : List Event) (s : State),
    Runs.run (State.step m) (State.initial attr) events = some s → Serialised State.appends s := by
  intro h
  have happart := (h writableMount ⟨0, 0, 0⟩ appendsTwice _ (Option.some_get appendsTwice_runs).symm).apart
  revert happart
  decide +kernel

end HostfsCache
end Prose
