import Prose.PagesSections
import Prose.Runs
/-!
# PagesRuns — the page allocator over a run

Whatever the threads do in whatever order, the trees, the recency list and the counts agree, and no byte is in two places.
Every byte of a heap area is in one, as long as what is given back lies in a heap area or in none.  And what a call reports
as cleared is zero.
-/
namespace Prose
namespace Pages

open Extents State List

variable {t : Target} {s s' : State}

theorem createLarge_sound {length reservation : Nat} (h : Sound t s)
    (hf : s.Fresh ⟨reservation, length + t.pageSize⟩) :
    Sound t { s.zero ⟨t.base reservation, length⟩ with creating := ⟨t.base reservation, length⟩ :: s.creating } ∧
      Conserves s { s.zero ⟨t.base reservation, length⟩ with creating := ⟨t.base reservation, length⟩ :: s.creating } := by
  obtain ⟨-, hlo, hhi⟩ := base_spec t reservation
  have hnone : ∀ a, (⟨t.base reservation, length⟩ : Extent).Has a → s.places [] a = 0 := fun a ⟨h1, h2⟩ => by
    have h1 : t.base reservation ≤ a := h1
    have h2 : a < t.base reservation + length := h2
    exact Fresh.places hf ⟨show reservation ≤ a by omega, show a < reservation + (length + t.pageSize) by omega⟩
  have hplaces : ∀ a, ({ s.zero ⟨t.base reservation, length⟩ with
      creating := ⟨t.base reservation, length⟩ :: s.creating } : State).places [] a =
      s.places [] a + if (⟨t.base reservation, length⟩ : Extent).Has a then 1 else 0 := fun a => by
    show cover (s.held ++ s.discarding.map Discard.extent ++ ⟨t.base reservation, length⟩ :: s.creating ++ s.unmapping ++
      s.spare) a + cover s.chunks a + cover [] a = _
    unfold State.places State.others
    simp only [cover_append, cover_cons]
    omega
  have hzero : ∀ a, s.memory a = 0 → (s.zero ⟨t.base reservation, length⟩).memory a = 0 := fun a ha => by
    show (if _ then (0 : UInt8) else s.memory a) = 0
    rw [ha, ite_self]
  refine ⟨⟨h.core.frame ⟨rfl, rfl, rfl, rfl⟩ (fun _ _ => rfl) (fun _ he => he) (fun _ _ a _ _ h0 => hzero a h0)
    (fun a => ?_) (fun c _ hcl => ?_), h.used, h.discards, h.spare, h.unmapping, fun e he a ha => ?_⟩,
    Conserves.of_le rfl fun _ => Nat.le_refl _⟩
  · have := h.core.apart a
    have := hnone a
    rw [hplaces]
    split
    · rename_i ha
      have := this ha
      omega
    · omega
  · have := hcl.2.2
    rw [hplaces]
    omega
  · rcases mem_cons.1 he with rfl | he
    · exact if_pos ha
    · exact hzero a (h.creating e he a ha)

/-- **One step of any thread.** -/
theorem step_sound {e : Event} {report : Option Report} (h : Sound t s) (hs : step t s e = some (s', report)) :
    Sound t s' ∧ (OneKind s e → Conserves s s') ∧
      ∀ r ∈ report, r.cleared = true ∨ e.wantsZeroes = true → ∀ a, r.memory.Has a → s'.memory a = 0 := by
  cases e with
  | allocate at_ length kernel g =>
    simp only [step] at hs
    split at hs
    · rename_i hask
      have hgiven := pages_given (g := g) at_ false h hask.1
      split at hs
      · rename_i s1 hp
        cases hs
        obtain ⟨h1, h2⟩ := hgiven.failed (by rw [hp])
        rw [hp] at h1 h2
        exact ⟨h1, fun _ => h2, fun _ hr => nomatch hr⟩
      rename_i s1 address cleared hp
      cases hs
      obtain ⟨h1, h2, h3⟩ := hgiven.given address cleared (by rw [hp])
      rw [hp] at h1 h2 h3
      refine ⟨h1, fun _ => h2, ?_⟩
      rintro _ ⟨⟩ (hz | hz) a ha
      · exact h3 hz a ha
      · exact nomatch hz
    · exact nomatch hs
  | mmap at_ length noZero kernel g =>
    simp only [step] at hs
    split at hs
    · rename_i hask
      have hgiven := fun z => pages_given (g := g) at_ z h hask.1
      split at hs
      · rename_i s1 hp
        cases hs
        obtain ⟨h1, h2⟩ := (hgiven false).failed (by rw [hp])
        rw [hp] at h1 h2
        exact ⟨h1, fun _ => h2, fun _ hr => nomatch hr⟩
      rename_i s1 address cleared hp
      have hg := fun z => (hgiven z).given address cleared (by rw [hp])
      rw [hp] at hg
      split at hs
      · cases hs
        exact ⟨(hg true).1, fun _ => (hg true).2.1, fun _ hr => nomatch hr⟩
      rename_i hnot
      cases hs
      refine ⟨(hg false).1, fun _ => (hg false).2.1, ?_⟩
      rintro _ ⟨⟩ hz a ha
      refine (hg false).2.2 ?_ a ha
      have hz : cleared = true ∨ (!noZero) = true := hz
      cases cleared <;> cases noZero <;> simp_all
    · exact nomatch hs
  | memset r =>
    simp only [step] at hs
    split at hs
    · cases hs
      have hzero : ∀ a, s.memory a = 0 → (s.zero r).memory a = 0 := fun a ha => by
        show (if _ then (0 : UInt8) else s.memory a) = 0
        rw [ha, ite_self]
      refine ⟨⟨h.core.frame ⟨rfl, rfl, rfl, rfl⟩ (fun _ _ => rfl) (fun _ he => he) (fun _ _ a _ _ h0 => hzero a h0)
        h.core.apart (fun _ _ hcl => hcl.2.2), h.used, h.discards, h.spare, h.unmapping,
        fun e he a ha => hzero a (h.creating e he a ha)⟩, fun _ => Conserves.of_le rfl fun _ => Nat.le_refl _, ?_⟩
      rintro _ ⟨⟩ - a ha
      exact if_pos ha
    · exact nomatch hs
  | createLarge length reservation =>
    simp only [step] at hs
    split at hs
    · rename_i hf
      cases hs
      obtain ⟨h1, h2⟩ := createLarge_sound h hf.2.2
      exact ⟨h1, fun _ => h2, fun _ hr => nomatch hr⟩
    · exact nomatch hs
  | countLarge r =>
    simp only [step] at hs
    split at hs
    · rename_i hr
      cases hs
      have hzero := h.creating r hr
      refine ⟨⟨h.core.regroup rfl fun a => ?_, ?_, h.discards, h.spare, h.unmapping,
        fun e he => h.creating e (mem_of_mem_erase he)⟩, fun _ => Conserves.of_le rfl fun a => ?_, ?_⟩
      · have := cover_erase (a := a) hr
        unfold State.others State.handOut
        simp only [cover_append, cover_cons]
        omega
      · show s.used + r.size = total (r :: s.held)
        rw [total_cons, h.used, Nat.add_comm]
      · show s.inPlace a ≤ cover (r :: s.held) a + cover s.chunks a + cover (s.discarding.map Discard.extent) a
        rw [cover_cons]
        unfold State.inPlace
        omega
      · rintro _ ⟨⟩ - a ha
        exact hzero a ha
    · exact nomatch hs
  | free r g =>
    simp only [step] at hs
    split at hs
    · rename_i hr
      obtain ⟨s1, hs1, heq⟩ := Option.map_eq_some_iff.1 hs
      obtain ⟨rfl, rfl⟩ := Prod.mk.inj heq
      obtain ⟨s2, hs2, h1, h2⟩ := freePages_sound (g := g) h hr.1 hr.2.1 hr.2.2.1 hr.2.2.2.1
      obtain rfl := Option.some.inj (hs1.symm.trans hs2)
      exact ⟨h1, h2, fun _ hr => nomatch hr⟩
    · exact nomatch hs
  | discarded d g =>
    simp only [step] at hs
    split at hs
    · rename_i hd
      cases hs
      obtain ⟨h1, h2⟩ := discarded_sound (g := g) h hd
      exact ⟨h1, fun _ => h2, fun _ hr => nomatch hr⟩
    · exact nomatch hs
  | munmap r =>
    simp only [step] at hs
    split at hs
    · rename_i hr
      cases hs
      obtain ⟨h1, h2⟩ := munmap_sound h hr
      exact ⟨h1, fun _ => h2, fun _ hr => nomatch hr⟩
    · exact nomatch hs
  | write r g =>
    simp only [step] at hs
    split at hs
    · rename_i hr
      cases hs
      have hheld : ∀ a, r.Has a → 0 < cover s.held a := fun a ha => hr.1.pos ha
      have hno : ∀ a, r.Has a → cover s.chunks a = 0 ∧ cover s.creating a = 0 := fun a ha => by
        have := h.core.apart a
        have := hheld a ha
        unfold State.places State.others at *
        simp only [cover_append] at *
        omega
      refine ⟨⟨overwrite_core h.core fun a ha => (hno a ha).1, h.used, h.discards, h.spare, h.unmapping,
        fun e he a ha => (if_neg fun hra => ?_).trans (h.creating e he a ha)⟩, fun _ => Conserves.of_le rfl fun a => ?_,
        fun _ hr => nomatch hr⟩
      · exact cover_eq_zero.1 (hno a hra).2 e he ha
      · have hchunks : (s.overwrite t r g).chunks = s.chunks := by
          refine map_congr_left fun c hc => congrArg (Extent.mk c) (congrArg FreeChunk.size (if_pos ?_))
          exact Extent.apart_iff.2 fun a hra hca =>
            cover_eq_zero.1 (hno a hra).1 _ (extent_mem hc) (h.core.header_has hc hca)
        unfold State.inPlace
        rw [hchunks]
        exact Nat.le_refl _
    · exact nomatch hs
  | relink g =>
    simp only [step] at hs
    cases hs
    refine ⟨⟨h.core.frame ⟨rfl, rfl, rfl, rfl⟩ (fun _ _ => rfl) (fun _ he => he) (fun c hc a ha hge h0 => ?_)
      h.core.apart (fun _ _ hcl => hcl.2.2), h.used, h.discards, h.spare, h.unmapping, fun e he a ha => ?_⟩,
      fun _ => Conserves.of_le rfl fun _ => Nat.le_refl _, fun _ hr => nomatch hr⟩
    · -- the header of one chunk is not behind the header of another
      refine (if_neg ?_).trans h0
      rintro ⟨d, hd, hda⟩
      obtain rfl := h.core.eq_of_has hc hd ha (h.core.header_has hd hda)
      exact absurd hda.2 (Nat.not_lt.2 hge)
    · refine (if_neg ?_).trans (h.creating e he a ha)
      rintro ⟨d, hd, hda⟩
      have hno := h.core.others_of_has hd (h.core.header_has hd hda)
      have : 0 < cover s.others a := cover_pos.2 ⟨e, by
        unfold State.others
        simp only [mem_append]
        exact .inl (.inl (.inr he)), ha⟩
      omega

/-! ## The runs -/

def Placed (s : State) : Prop := ∀ area ∈ s.heapAreas, ∀ a, area.Has a → s.inPlace a = 1

theorem Conserves.placed (h : Sound t s') (hc : Conserves s s') (hp : Placed s) : Placed s' := by
  intro area harea a ha
  have := inPlace_le h a
  rcases hc area harea a ha with ⟨h1, h2⟩ | h1
  · have := hp area h1 a ha
    omega
  · omega

theorem sound_initial (t : Target) : Sound t {} where
  core :=
    { apart := fun _ => Nat.zero_le _
      bySize := .refl _
      whole := fun _ hc => nomatch hc
      resident := fun _ hc => nomatch hc
      listed := fun _ hc => nomatch hc
      recent := .refl _
      residentFree := rfl
      parted := fun _ hc => nomatch hc
      clean := fun _ hc => nomatch hc }
  used := rfl
  discards := fun _ hd => nomatch hd
  spare := fun _ ha => nomatch ha
  unmapping := fun _ hr => nomatch hr
  creating := fun _ he => nomatch he

theorem next_eq_some {e : Event} (hs : next t s e = some s') : ∃ report, step t s e = some (s', report) := by
  obtain ⟨⟨s1, report⟩, hs1, rfl⟩ := Option.map_eq_some_iff.1 hs
  exact ⟨report, hs1⟩

/-- **Every run keeps the allocator sound.** -/
theorem run_sound {events : List Event} (hrun : Runs.run (next t) {} events = some s) : Sound t s :=
  Runs.run_inv (I := Sound t) (Q := fun _ _ => True)
    (fun _ _ _ hi _ hs => (step_sound hi (next_eq_some hs).choose_spec).1) (sound_initial t)
    (Runs.along_iff.2 fun _ _ _ _ _ _ => trivial) hrun

/-- **The page allocator's accounts.** -/
structure Accounted (t : Target) (s : State) : Prop where
  /-- Every byte of every heap area is in one allocation, in one free chunk, or in one chunk being discarded. -/
  placed : ∀ area ∈ s.heapAreas, ∀ a, area.Has a →
    cover s.held a + cover s.chunks a + cover (s.discarding.map Discard.extent) a = 1
  trees : s.chunksByAddress.Nodup ∧ s.chunksBySize.Perm s.chunksByAddress
  parted : s.discarding = [] → ∀ c ∈ s.chunksByAddress, ∀ d ∈ s.chunksByAddress, s.nextAddress c ≠ d
  resident : ∀ c ∈ s.chunksByAddress, (s.header c).resident ≤ (s.header c).size
  residentFree : s.residentFree = (s.chunksByAddress.map fun c => (s.header c).resident).sum
  recent : s.leastRecent.Nodup ∧
    ∀ c, c ∈ s.leastRecent ↔ c ∈ s.chunksByAddress ∧ t.systemPage < (s.header c).resident
  used : s.used = total s.held

def builtFor : Target where
  systemPage := 4096
  headerSize := 88
  bits64 := true
  residentFreeMaximum := 2 ^ 28
  tie := fun a b => decide (a < b)
  systemPage_dvd := by decide
  headerSize_le := by decide

def filled : Garbage := ⟨fun _ => 255, fun _ => {}⟩

/-- A region in an area of its own is extended into the heap that lies behind it, and freed. -/
def extended : List Event :=
  [.createLarge (2 ^ 34 + 2 ^ 14) (2 ^ 40), .countLarge ⟨2 ^ 40, 2 ^ 34 + 2 ^ 14⟩,
    .allocate none (2 ^ 14) (some (2 ^ 40 + 2 ^ 34 + 2 ^ 14)) filled, .free ⟨2 ^ 40 + 2 ^ 34 + 2 ^ 14, 2 ^ 14⟩ filled,
    .allocate (some (2 ^ 40 + 2 ^ 34 + 2 ^ 14)) (2 ^ 14) none filled, .free ⟨2 ^ 40, 2 ^ 34 + 2 ^ 15⟩ filled]

theorem extended_runs : (Runs.run (next builtFor) {} extended).isSome = true := by decide

def onePage : List Event := [.allocate none (2 ^ 14) (some (2 ^ 40)) filled]

theorem onePage_runs : (Runs.run (next builtFor) {} onePage).isSome = true := by decide

theorem onePage_reports : (step builtFor {} (.allocate none (2 ^ 14) (some (2 ^ 40)) filled)).map Prod.snd =
    some (some ⟨⟨2 ^ 40, 2 ^ 14⟩, true⟩) := by decide

/-- One round of `_DiscardAboveLimit` that no other thread comes between; `none` where its loop ends. -/
def State.round (t : Target) (limit : Nat) (s : State) (g : Garbage × Garbage) : Option State :=
  if s.residentFree > limit then
    s.leastRecent.getLast?.map fun chunk =>
      (s.discardAbove t limit g.1).putBack t ⟨chunk, (s.header chunk).size, limit⟩ g.2
  else none

/-- `_DiscardAboveLimit` in front of its loop: `_ResidentFreeLimit` has left its peak. -/
def State.limited (s : State) : State := { s with recentPeak := s.peak }

theorem round_sound {limit : Nat} {g : Garbage × Garbage} (h : Sound t s) (hs : s.round t limit g = some s') :
    Sound t s' ∧ s'.residentFree < s.residentFree := by
  unfold State.round at hs
  split at hs
  · rename_i hlimit
    obtain ⟨c, hc, rfl⟩ := Option.map_eq_some_iff.1 hs
    obtain ⟨hmem, hlru⟩ := mem_filter.1 (h.core.recent.mem_iff.1 (mem_of_getLast? hc))
    have hlisted : t.systemPage < (s.header c).resident := of_decide_eq_true ((h.core.listed c hmem).symm.trans hlru)
    have htaken : s.discardAbove t limit g.1 =
        { s.remove t c g.1 with discarding := s.discarding ++ [⟨c, (s.header c).size, limit⟩] } := by
      unfold State.discardAbove
      rw [if_pos hlimit, hc]
    have hd : (⟨c, (s.header c).size, limit⟩ : Discard) ∈ (s.discardAbove t limit g.1).discarding := by
      rw [htaken]
      exact mem_append_right _ mem_cons_self
    obtain ⟨hsound, -, hfree⟩ := putBack_sound (g := g.2) (discardAbove_sound (g := g.1) limit h).1 hd
    refine ⟨hsound, ?_⟩
    rw [hfree, htaken]
    -- the chunk held more than the one page that it still has
    show s.residentFree - (s.header c).resident + t.systemPage < s.residentFree
    have := h.core.resident_le hmem
    omega
  · cases hs

/-- **What the loop leaves.** -/
theorem round_none {limit : Nat} {g : Garbage × Garbage} (h : Sound t s) (hs : s.round t limit g = none) :
    s.residentFree ≤ limit ∨ ∀ c ∈ s.chunksByAddress, (s.header c).resident ≤ t.systemPage := by
  by_cases hlimit : s.residentFree ≤ limit
  · exact .inl hlimit
  refine .inr fun c hc => Nat.le_of_not_lt fun hlt => ?_
  have hmem : c ∈ s.leastRecent :=
    h.core.recent.mem_iff.2 (mem_filter.2 ⟨hc, (h.core.listed c hc).trans (decide_eq_true hlt)⟩)
  unfold State.round at hs
  rw [if_pos (Nat.lt_of_not_le hlimit), Option.map_eq_none_iff, getLast?_eq_none_iff] at hs
  rw [hs] at hmem
  exact absurd hmem not_mem_nil

/-- **The loop ends**, by induction on the free memory that holds pages. -/
theorem rounds_end (limit : Nat) (h : Sound t s) (gs : Nat → Garbage × Garbage) : ∃ n s', n ≤ s.residentFree ∧
    Runs.run (State.round t limit) s ((List.range n).map gs) = some s' ∧ Sound t s' ∧ s'.round t limit (gs n) = none := by
  induction hfree : s.residentFree using Nat.strong_induction_on generalizing s gs with
  | _ free ih =>
    cases hs : s.round t limit (gs 0) with
    | none => exact ⟨0, s, Nat.zero_le _, rfl, h, hs⟩
    | some s1 =>
      obtain ⟨h1, hlt⟩ := round_sound h hs
      obtain ⟨n, s', hn, hrun, h', hend⟩ := ih s1.residentFree (hfree ▸ hlt) h1 (fun k => gs (k + 1)) rfl
      refine ⟨n + 1, s', by omega, ?_, h', hend⟩
      rw [List.range_succ_eq_map, map_cons, map_map, Runs.run_cons, hs]
      exact hrun

/-- **What `_DiscardAboveLimit` is to do**, whatever comes to be in the pages it gives back. -/
structure GivesBack (t : Target) (s : State) : Prop where
  lowers : ∀ gs s1 g s2, Runs.run (State.round t (s.residentFreeLimit t)) s.limited gs = some s1 →
    s1.round t (s.residentFreeLimit t) g = some s2 → s2.residentFree < s1.residentFree
  ends : ∀ gs : Nat → Garbage × Garbage, ∃ n s', n ≤ s.residentFree ∧
    Runs.run (State.round t (s.residentFreeLimit t)) s.limited ((List.range n).map gs) = some s' ∧
    s'.round t (s.residentFreeLimit t) (gs n) = none ∧
    (s'.residentFree ≤ s.residentFreeLimit t ∨ ∀ c ∈ s'.chunksByAddress, (s'.header c).resident ≤ t.systemPage)
  /-- The peak is not below what is in use, and no subtraction on the way to it is of more than there is. -/
  peak : ∀ used recentPeak : Nat, used ≤ ({ used, recentPeak } : State).peak ∧
    (¬ used > recentPeak → used ≤ recentPeak ∧ (recentPeak - used) / 64 ≤ recentPeak)

end Pages
end Prose
