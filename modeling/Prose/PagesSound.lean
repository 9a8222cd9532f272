import Mathlib.Algebra.BigOperators.Group.List.Basic
import Mathlib.Data.List.Perm.Basic
import Mathlib.Algebra.Order.Ring.Nat
import Prose.PagesModel
import Prose.Runs
/-!
# PagesSound — every byte is in one place

While a thread moves memory between the trees and its own hands, `Core` says of all of it that no byte is in two places, and
of the trees and the recency list what holds between any two operations on them.  Each operation has a lemma; the sections
under the lock, and the runs, are put together from these.
-/
namespace Prose
namespace Pages

open Extents List

namespace State

variable (t : Target) (s : State)

def others : List Extent :=
  s.held ++ s.discarding.map Discard.extent ++ s.creating ++ s.unmapping ++ s.spare

def places (hand : List Extent) (a : Nat) : Nat := cover s.others a + cover s.chunks a + cover hand a

theorem cover_taken (a : Nat) : cover s.taken a = cover s.others a + cover s.chunks a := by
  unfold taken others
  simp only [cover_append]
  omega

def outside : State :=
  { s with
    chunksByAddress := []
    chunksBySize := []
    residentFree := 0
    leastRecent := []
    header := fun _ => {}
    memory := fun _ => 0 }

/-- A clean chunk, or what is to be one: in a heap's area, zero behind its header, and something else right behind it. -/
def Clean (hand : List Extent) (e : Extent) : Prop :=
  (∃ area ∈ s.heapAreas, area.start ≤ e.start ∧ e.stop ≤ area.stop) ∧
    (∀ a, e.Has a → e.start + t.headerSize ≤ a → s.memory a = 0) ∧ 0 < s.places hand e.stop

end State

open State

/-- **The trees and the list, while `hand` is out of them.** -/
structure Core (t : Target) (s : State) (hand : List Extent) : Prop where
  apart : ∀ a, s.places hand a ≤ 1
  bySize : s.chunksBySize.Perm s.chunksByAddress
  whole : ∀ c ∈ s.chunksByAddress, t.pageSize ∣ c ∧ t.pageSize ∣ (s.header c).size ∧ 0 < (s.header c).size
  resident : ∀ c ∈ s.chunksByAddress, (s.header c).resident ≤ (s.header c).size
  listed : ∀ c ∈ s.chunksByAddress, (s.header c).inLru = decide (t.systemPage < (s.header c).resident)
  recent : s.leastRecent.Perm (s.chunksByAddress.filter fun c => (s.header c).inLru)
  residentFree : s.residentFree = (s.chunksByAddress.map fun c => (s.header c).resident).sum
  parted : ∀ c ∈ s.chunksByAddress, ∀ d ∈ s.chunksByAddress, s.nextAddress c ≠ d
  clean : ∀ c ∈ s.chunksByAddress, (s.header c).clean = true → s.Clean t hand (s.extent c)

def State.inside (s : State) : State :=
  { s with
    used := 0, recentPeak := 0, discarding := [], held := [], zeroing := [], creating := [], unmapping := [], spare := [] }

/-- **What is done outside of the trees**: the chunks and what is behind a clean one stay as they are. -/
theorem Core.frame {t : Target} {s s' : State} {hand hand' : List Extent} (h : Core t s hand)
    (hlists : s'.chunksByAddress = s.chunksByAddress ∧ s'.chunksBySize = s.chunksBySize ∧
      s'.residentFree = s.residentFree ∧ s'.leastRecent = s.leastRecent)
    (hheader : ∀ c ∈ s.chunksByAddress, s'.header c = s.header c) (hareas : ∀ area ∈ s.heapAreas, area ∈ s'.heapAreas)
    (hmem : ∀ c ∈ s.chunksByAddress, ∀ a, (s.extent c).Has a → c + t.headerSize ≤ a → s.memory a = 0 → s'.memory a = 0)
    (hone : ∀ a, s'.places hand' a ≤ 1)
    (hbehind : ∀ c ∈ s.chunksByAddress, s.Clean t hand (s.extent c) → 0 < s'.places hand' (s.extent c).stop) :
    Core t s' hand' := by
  obtain ⟨h1, h2, h3, h4⟩ := hlists
  have hext : ∀ c ∈ s.chunksByAddress, s'.extent c = s.extent c := fun c hc =>
    congrArg (Extent.mk c) (congrArg FreeChunk.size (hheader c hc))
  refine ⟨hone, by rw [h1, h2]; exact h.bySize, fun c hc => ?_, fun c hc => ?_, fun c hc => ?_, ?_, ?_, fun c hc d hd => ?_,
    fun c hc hcl => ?_⟩
  all_goals try rw [h1] at hc
  · rw [hheader c hc]
    exact h.whole c hc
  · rw [hheader c hc]
    exact h.resident c hc
  · rw [hheader c hc]
    exact h.listed c hc
  · rw [h1, h4, filter_congr fun c hc => by rw [hheader c hc]]
    exact h.recent
  · rw [h1, h3, map_congr_left fun c hc => by rw [hheader c hc]]
    exact h.residentFree
  · rw [h1] at hd
    unfold State.nextAddress
    rw [hheader c hc]
    exact h.parted c hc d hd
  · rw [hheader c hc] at hcl
    obtain ⟨⟨area, harea, hin⟩, hzero, -⟩ := h.clean c hc hcl
    rw [hext c hc]
    exact ⟨⟨area, hareas area harea, hin⟩, fun a ha hge => hmem c hc a ha hge (hzero a ha hge),
      hbehind c hc (h.clean c hc hcl)⟩

theorem Core.regroup {t : Target} {s s' : State} {hand hand' : List Extent} (h : Core t s hand) (hs : s'.inside = s.inside)
    (hc : ∀ a, cover s'.others a + cover hand' a = cover s.others a + cover hand a) : Core t s' hand' := by
  have hin : ∀ {β : Type} (f : State → β), (∀ s, f s = f s.inside) → f s' = f s := fun f hf => by rw [hf, hs, ← hf]
  have hplaces : ∀ a, s'.places hand' a = s.places hand a := fun a => by
    have := hc a
    unfold State.places
    rw [hin State.chunks fun _ => rfl]
    omega
  exact h.frame ⟨hin _ fun _ => rfl, hin _ fun _ => rfl, hin _ fun _ => rfl, hin _ fun _ => rfl⟩
    (fun c _ => congrFun (hin State.header fun _ => rfl) c) (fun area ha => (hin State.heapAreas fun _ => rfl) ▸ ha)
    (fun c _ a _ _ h0 => (congrFun (hin State.memory fun _ => rfl) a).trans h0) (fun a => (hplaces a).trans_le (h.apart a))
    fun c _ hcl => (hplaces _).symm ▸ hcl.2.2

/-- Nothing but chunks, and what a thread has in its hands, moves, and from the ones to the others. -/
structure Moves (s : State) (hand : List Extent) (s' : State) (hand' : List Extent) : Prop where
  outside : s'.outside = s.outside
  memory : ∀ a, 0 < cover s.others a → s'.memory a = s.memory a
  chunks : ∀ a, cover s'.chunks a + cover hand' a = cover s.chunks a + cover hand a

section

variable {s s' s'' : State} {hand hand' hand'' : List Extent}

theorem Moves.field (h : Moves s hand s' hand') {β : Type} (f : State → β) (hf : ∀ s, f s = f s.outside) : f s' = f s := by
  rw [hf, h.outside, ← hf]

theorem Moves.others (h : Moves s hand s' hand') : s'.others = s.others := h.field State.others fun _ => rfl

theorem Moves.of_cover (h : ∀ a, cover hand' a = cover hand a) : Moves s hand s hand' :=
  ⟨rfl, fun _ _ => rfl, fun a => by rw [h]⟩

theorem Moves.trans (h : Moves s hand s' hand') (h' : Moves s' hand' s'' hand'') : Moves s hand s'' hand'' :=
  ⟨h'.outside.trans h.outside, fun a ha => (h'.memory a (by rw [h.others]; exact ha)).trans (h.memory a ha),
    fun a => (h'.chunks a).trans (h.chunks a)⟩

end

variable {t : Target} {s : State} {hand hand' : List Extent} {c d : Nat} {g : Garbage}

/-! ## Pages -/

theorem Target.pageSize_eq (t : Target) : t.pageSize = 16384 := by
  have := Nat.le_of_dvd (by decide) t.systemPage_dvd
  unfold Target.pageSize
  split <;> omega

theorem Target.systemPage_le (t : Target) {n : Nat} (h : t.pageSize ∣ n) (hn : 0 < n) : t.systemPage ≤ n := by
  have := Nat.le_of_dvd hn h
  have := Nat.le_of_dvd (by decide) t.systemPage_dvd
  have := t.pageSize_eq
  omega

/-! ## Chunks -/

theorem extent_mem (hc : c ∈ s.chunksByAddress) : s.extent c ∈ s.chunks := mem_map_of_mem hc

theorem header_writeHeader {f : FreeChunk} (hd : d ≠ c) : (s.writeHeader t c f g).header d = s.header d :=
  Function.update_of_ne hd _ _

theorem chunks_writeHeader {f : FreeChunk} (hc : c ∉ s.chunksByAddress) : (s.writeHeader t c f g).chunks = s.chunks :=
  map_congr_left fun d hd => congrArg (Extent.mk d) (congrArg FreeChunk.size
    (header_writeHeader fun hdc : d = c => hc (hdc ▸ hd)))

theorem size_insertNode (d : Nat) : ((s.insertNode t c g).header d).size = (s.header d).size := by
  by_cases hd : d = c
  · rw [hd, show (s.insertNode t c g).header c = _ from Function.update_self ..]
  · rw [show (s.insertNode t c g).header d = _ from Function.update_of_ne hd _ _]

theorem extent_insertNode (d : Nat) : (s.insertNode t c g).extent d = s.extent d :=
  congrArg (Extent.mk d) (size_insertNode d)

theorem nextAddress_insertNode (d : Nat) : (s.insertNode t c g).nextAddress d = s.nextAddress d :=
  congrArg (d + ·) (size_insertNode d)

theorem chunks_insertNode : (s.insertNode t c g).chunks = s.extent c :: s.chunks :=
  congrArg₂ List.cons (extent_insertNode c) (map_congr_left fun d _ => extent_insertNode d)

theorem header_remove : (s.remove t c g).header c = { s.header c with inLru := false } := Function.update_self ..

theorem header_remove_of_ne (hd : d ≠ c) : (s.remove t c g).header d = s.header d := Function.update_of_ne hd _ _

theorem size_remove (d : Nat) : ((s.remove t c g).header d).size = (s.header d).size := by
  by_cases hd : d = c
  · rw [hd, header_remove]
  · rw [header_remove_of_ne hd]

theorem extent_remove (d : Nat) : (s.remove t c g).extent d = s.extent d := congrArg (Extent.mk d) (size_remove d)

theorem nextAddress_remove (d : Nat) : (s.remove t c g).nextAddress d = s.nextAddress d := congrArg (d + ·) (size_remove d)

theorem chunks_remove (hand : List Extent) (hc : c ∈ s.chunksByAddress) (a : Nat) :
    cover (s.remove t c g).chunks a + cover (s.extent c :: hand) a = cover s.chunks a + cover hand a := by
  have hchunks : (s.remove t c g).chunks = (s.chunksByAddress.erase c).map s.extent :=
    map_congr_left fun d _ => extent_remove d
  have hcover : cover s.chunks a = cover (s.extent c :: (s.chunksByAddress.erase c).map s.extent) a :=
    cover_perm ((perm_cons_erase hc).map s.extent)
  rw [hchunks, hcover, cover_cons, cover_cons]
  omega

theorem places_remove (hc : c ∈ s.chunksByAddress) (a : Nat) :
    (s.remove t c g).places (s.extent c :: hand) a = s.places hand a := by
  have := chunks_remove (t := t) (g := g) hand hc a
  have : cover (s.remove t c g).others a = cover s.others a := rfl
  unfold State.places
  omega

namespace Core

variable (h : Core t s hand)
include h

theorem has_start (hc : c ∈ s.chunksByAddress) : (s.extent c).Has c :=
  ⟨Nat.le_refl _, Nat.lt_add_of_pos_right (h.whole c hc).2.2⟩

theorem header_has {a : Nat} (hc : c ∈ s.chunksByAddress) (ha : (⟨c, t.headerSize⟩ : Extent).Has a) :
    (s.extent c).Has a := by
  obtain ⟨-, hdvd, hpos⟩ := h.whole c hc
  have := t.systemPage_le hdvd hpos
  have := t.headerSize_le
  have hlt : a < c + t.headerSize := ha.2
  exact ⟨ha.1, show a < c + (s.header c).size by omega⟩

theorem chunks_le (a : Nat) : cover s.chunks a ≤ 1 := by
  have := h.apart a
  unfold State.places at this
  omega

theorem nodup : s.chunksByAddress.Nodup := by
  refine nodup_iff_count_le_one.2 fun c => ?_
  by_cases hc : c ∈ s.chunksByAddress
  · refine Nat.le_trans ?_ (h.chunks_le c)
    unfold cover State.chunks
    rw [countP_map]
    exact countP_mono_left fun x _ hx => by
      rw [eq_of_beq hx]
      exact decide_eq_true (h.has_start hc)
  · rw [List.count_eq_zero.2 hc]
    exact Nat.zero_le _

/-- **An address of a chunk is in no other, and nowhere else.** -/
theorem eq_of_has {a : Nat} (hc : c ∈ s.chunksByAddress) (hd : d ∈ s.chunksByAddress) (hca : (s.extent c).Has a)
    (hda : (s.extent d).Has a) : c = d :=
  congrArg Extent.start (Extents.eq_of_has h.chunks_le (extent_mem hc) (extent_mem hd) hca hda)

theorem hand_of_has {a : Nat} (hc : c ∈ s.chunksByAddress) (ha : (s.extent c).Has a) : cover hand a = 0 := by
  have := h.apart a
  have : 0 < cover s.chunks a := cover_pos.2 ⟨_, extent_mem hc, ha⟩
  unfold State.places at *
  omega

theorem others_of_has {a : Nat} (hc : c ∈ s.chunksByAddress) (ha : (s.extent c).Has a) : cover s.others a = 0 := by
  have := h.apart a
  have : 0 < cover s.chunks a := cover_pos.2 ⟨_, extent_mem hc, ha⟩
  unfold State.places at *
  omega

theorem notMem_of_hand (ha : 0 < cover hand c) : c ∉ s.chunksByAddress := fun hc => by
  have := h.hand_of_has hc (h.has_start hc)
  omega

theorem hand_congr (he : ∀ a, cover hand' a = cover hand a) : Core t s hand' := by
  have hp : ∀ a, s.places hand' a = s.places hand a := fun a => by
    unfold State.places
    rw [he]
  exact { h with
    apart := fun a => by rw [hp]; exact h.apart a
    clean := fun c hc hcl => by
      obtain ⟨h1, h2, h3⟩ := h.clean c hc hcl
      exact ⟨h1, h2, by rw [hp]; exact h3⟩ }

theorem writeHeader {f : FreeChunk} (hc : 0 < cover hand c)
    (hr : ∀ a, (⟨c, t.headerSize⟩ : Extent).Has a → 0 < cover hand a) : Core t (s.writeHeader t c f g) hand := by
  have hn := h.notMem_of_hand hc
  have hheader : ∀ d ∈ s.chunksByAddress, (s.writeHeader t c f g).header d = s.header d := fun d hd =>
    header_writeHeader fun hdc : d = c => hn (hdc ▸ hd)
  have hext : ∀ d ∈ s.chunksByAddress, (s.writeHeader t c f g).extent d = s.extent d := fun d hd =>
    congrArg (Extent.mk d) (congrArg FreeChunk.size (hheader d hd))
  have hplaces : ∀ a, (s.writeHeader t c f g).places hand a = s.places hand a := fun a => by
    unfold State.places
    rw [chunks_writeHeader hn]
    rfl
  exact
  { apart := fun a => by rw [hplaces]; exact h.apart a
    bySize := h.bySize
    whole := fun d hd => by rw [hheader d hd]; exact h.whole d hd
    resident := fun d hd => by rw [hheader d hd]; exact h.resident d hd
    listed := fun d hd => by rw [hheader d hd]; exact h.listed d hd
    recent := h.recent.trans (by
      rw [filter_congr fun d hd => by rw [← hheader d hd]]
      rfl)
    residentFree := h.residentFree.trans (by
      rw [map_congr_left fun d hd => by rw [← hheader d hd]]
      rfl)
    parted := fun d hd e he => by
      unfold State.nextAddress
      rw [hheader d hd]
      exact h.parted d hd e he
    clean := fun d hd hcl => by
      rw [hheader d hd] at hcl
      obtain ⟨h1, h2, h3⟩ := h.clean d hd hcl
      refine ⟨by rw [hext d hd]; exact h1, fun a ha hge => ?_, by rw [hplaces, hext d hd]; exact h3⟩
      rw [hext d hd] at ha hge
      have hno : ¬ (⟨c, t.headerSize⟩ : Extent).Has a := fun hca => by
        have := h.hand_of_has hd ha
        have := hr a hca
        omega
      exact (if_neg hno).trans (h2 a ha hge) }

theorem writeHeader_moves {f : FreeChunk} (hc : 0 < cover hand c)
    (hr : ∀ a, (⟨c, t.headerSize⟩ : Extent).Has a → 0 < cover hand a) : Moves s hand (s.writeHeader t c f g) hand := by
  refine ⟨rfl, fun a ha => if_neg fun hca => ?_, fun a => by rw [chunks_writeHeader (h.notMem_of_hand hc)]⟩
  have := hr a hca
  have := h.apart a
  unfold State.places at this
  omega

/-- **A chunk taken out of the trees is in hand.** -/
theorem remove (hc : c ∈ s.chunksByAddress) : Core t (s.remove t c g) (s.extent c :: hand) := by
  have hne : ∀ d ∈ s.chunksByAddress.erase c, d ≠ c := fun d hd => (h.nodup.mem_erase_iff.1 hd).1
  have hmem : ∀ d ∈ s.chunksByAddress.erase c, d ∈ s.chunksByAddress := fun d hd => mem_of_mem_erase hd
  have hheader : ∀ d ∈ s.chunksByAddress.erase c, (s.remove t c g).header d = s.header d := fun d hd =>
    header_remove_of_ne (hne d hd)
  have hperm := perm_cons_erase hc
  exact
  { apart := fun a => by rw [places_remove hc]; exact h.apart a
    bySize := h.bySize.erase c
    whole := fun d hd => by rw [hheader d hd]; exact h.whole d (hmem d hd)
    resident := fun d hd => by rw [hheader d hd]; exact h.resident d (hmem d hd)
    listed := fun d hd => by rw [hheader d hd]; exact h.listed d (hmem d hd)
    recent := by
      have hfilter : ((s.remove t c g).chunksByAddress.filter fun d => ((s.remove t c g).header d).inLru) =
          (s.chunksByAddress.erase c).filter fun d => (s.header d).inLru :=
        filter_congr fun d hd => by rw [hheader d hd]
      have hold := h.recent.trans (hperm.filter _)
      rw [hfilter]
      rw [filter_cons] at hold
      unfold State.remove State.writeHeader
      dsimp only
      split
      · rename_i hlru
        rw [if_pos hlru] at hold
        simpa using hold.erase c
      · rename_i hlru
        rwa [if_neg hlru] at hold
    residentFree := by
      have hsum := (hperm.map fun d => (s.header d).resident).sum_eq
      have hrest : ((s.remove t c g).chunksByAddress.map fun d => ((s.remove t c g).header d).resident) =
          (s.chunksByAddress.erase c).map fun d => (s.header d).resident :=
        map_congr_left fun d hd => by rw [hheader d hd]
      have hold := h.residentFree
      rw [map_cons, sum_cons] at hsum
      rw [hrest]
      show s.residentFree - _ = _
      omega
    parted := fun d hd e he => by
      rw [nextAddress_remove]
      exact h.parted d (hmem d hd) e (hmem e he)
    clean := fun d hd hcl => by
      rw [hheader d hd] at hcl
      obtain ⟨h1, h2, h3⟩ := h.clean d (hmem d hd) hcl
      rw [extent_remove]
      refine ⟨h1, fun a ha hge => ?_, by rw [places_remove hc]; exact h3⟩
      refine (if_neg fun hca => hne d hd ?_).trans (h2 a ha hge)
      exact h.eq_of_has (hmem d hd) hc ha (h.header_has hc hca) }

theorem remove_moves (hc : c ∈ s.chunksByAddress) : Moves s hand (s.remove t c g) (s.extent c :: hand) := by
  refine ⟨rfl, fun a ha => if_neg fun hca => ?_, chunks_remove hand hc⟩
  have := h.others_of_has hc (h.header_has hc hca)
  omega

end Core

/-- **A chunk in hand goes into the trees**, if it touches none. -/
theorem Core.insertNode (h : Core t s (s.extent c :: hand)) (hdvd : t.pageSize ∣ c) (hsize : t.pageSize ∣ (s.header c).size)
    (hpos : 0 < (s.header c).size) (hres : (s.header c).resident ≤ (s.header c).size)
    (hparted : ∀ d ∈ s.chunksByAddress, s.nextAddress d ≠ c ∧ s.nextAddress c ≠ d)
    (hclean : (s.header c).clean = true → s.Clean t (s.extent c :: hand) (s.extent c)) :
    Core t (s.insertNode t c g) hand := by
  have hhand : ∀ a, (s.extent c).Has a → 0 < cover (s.extent c :: hand) a := fun a ha =>
    cover_pos.2 ⟨_, mem_cons_self, ha⟩
  have hn : c ∉ s.chunksByAddress :=
    h.notMem_of_hand (hhand c ⟨Nat.le_refl _, Nat.lt_add_of_pos_right hpos⟩)
  have hsame : (s.insertNode t c g).header c =
      { s.header c with inLru := decide ((s.header c).resident > t.systemPage) } := Function.update_self ..
  have hheader : ∀ d ∈ s.chunksByAddress, (s.insertNode t c g).header d = s.header d := fun d hd =>
    Function.update_of_ne (fun hdc : d = c => hn (hdc ▸ hd)) _ _
  have hplaces : ∀ a, (s.insertNode t c g).places hand a = s.places (s.extent c :: hand) a := fun a => by
    unfold State.places
    rw [chunks_insertNode, cover_cons, cover_cons]
    have : cover (s.insertNode t c g).others a = cover s.others a := rfl
    omega
  -- what a clean chunk asks for, of the state after
  have hkeep : ∀ e : Extent, s.Clean t (s.extent c :: hand) e →
      (∀ a, e.Has a → e.start + t.headerSize ≤ a → ¬ (⟨c, t.headerSize⟩ : Extent).Has a) →
      (s.insertNode t c g).Clean t hand e := fun e ⟨h1, h2, h3⟩ hno =>
    ⟨h1, fun a ha hge => (if_neg (hno a ha hge)).trans (h2 a ha hge), by rw [hplaces]; exact h3⟩
  exact
  { apart := fun a => by rw [hplaces]; exact h.apart a
    bySize := (perm_orderedInsert ..).trans (h.bySize.cons c)
    whole := by
      rintro d (_ | ⟨_, hd⟩)
      · rw [hsame]
        exact ⟨hdvd, hsize, hpos⟩
      · rw [hheader d hd]
        exact h.whole d hd
    resident := by
      rintro d (_ | ⟨_, hd⟩)
      · rw [hsame]
        exact hres
      · rw [hheader d hd]
        exact h.resident d hd
    listed := by
      rintro d (_ | ⟨_, hd⟩)
      · rw [hsame]
      · rw [hheader d hd]
        exact h.listed d hd
    recent := by
      have hfilter : (s.chunksByAddress.filter fun d => ((s.insertNode t c g).header d).inLru) =
          s.chunksByAddress.filter fun d => (s.header d).inLru := filter_congr fun d hd => by rw [hheader d hd]
      show List.Perm (if decide ((s.header c).resident > t.systemPage) then _ else _)
        ((c :: s.chunksByAddress).filter fun d => ((s.insertNode t c g).header d).inLru)
      rw [filter_cons, hfilter, hsame]
      split
      · exact h.recent.cons c
      · exact h.recent
    residentFree := by
      have hrest : (s.chunksByAddress.map fun d => ((s.insertNode t c g).header d).resident) =
          s.chunksByAddress.map fun d => (s.header d).resident := map_congr_left fun d hd => by rw [hheader d hd]
      show s.residentFree + _ = ((c :: s.chunksByAddress).map fun d => ((s.insertNode t c g).header d).resident).sum
      rw [map_cons, sum_cons, hrest, hsame, h.residentFree, Nat.add_comm]
    parted := by
      rintro d (_ | ⟨_, hd⟩) e (_ | ⟨_, he⟩)
      all_goals rw [nextAddress_insertNode]
      · exact fun hc => absurd hc (by unfold State.nextAddress; omega)
      · exact (hparted e he).2
      · exact (hparted d hd).1
      · exact h.parted d hd e he
    clean := by
      rintro d (_ | ⟨_, hd⟩) hcl
      · rw [hsame] at hcl
        rw [extent_insertNode]
        exact hkeep _ (hclean hcl) fun a _ hge hca => absurd hca.2 (Nat.not_lt.2 hge)
      · rw [hheader d hd] at hcl
        rw [extent_insertNode]
        refine hkeep _ (h.clean d hd hcl) fun a ha _ hca => ?_
        have hle := t.headerSize_le.trans (t.systemPage_le hsize hpos)
        have := h.hand_of_has hd ha
        have := hhand a ⟨hca.1, Nat.lt_of_lt_of_le hca.2 (Nat.add_le_add_left hle c)⟩
        omega }

theorem Core.insertNode_moves (h : Core t s (s.extent c :: hand)) (hsize : t.pageSize ∣ (s.header c).size)
    (hpos : 0 < (s.header c).size) : Moves s (s.extent c :: hand) (s.insertNode t c g) hand := by
  refine ⟨rfl, fun a ha => if_neg fun hca => ?_, fun a => by rw [chunks_insertNode, cover_cons, cover_cons]; omega⟩
  have hle := t.headerSize_le.trans (t.systemPage_le hsize hpos)
  have := h.apart a
  have : 0 < cover (s.extent c :: hand) a := cover_pos.2
    ⟨_, mem_cons_self, hca.1, Nat.lt_of_lt_of_le hca.2 (Nat.add_le_add_left hle c)⟩
  unfold State.places at *
  omega

theorem Core.resident_le (h : Core t s hand) (hc : c ∈ s.chunksByAddress) : (s.header c).resident ≤ s.residentFree := by
  rw [h.residentFree, ((perm_cons_erase hc).map _).sum_eq, map_cons, sum_cons]
  exact Nat.le_add_right _ _

/-! ## A chunk in hand -/

/-- A chunk that a thread has, with its header, out of the trees; nothing in them ends where it starts. -/
structure InHand (t : Target) (s : State) (c : Nat) (hand : List Extent) : Prop where
  core : Core t s (s.extent c :: hand)
  start : t.pageSize ∣ c
  size : t.pageSize ∣ (s.header c).size
  pos : 0 < (s.header c).size
  resident : (s.header c).resident ≤ (s.header c).size
  below : ∀ d ∈ s.chunksByAddress, s.nextAddress d ≠ c
  clean : (s.header c).clean = true →
    s.Clean t (s.extent c :: hand) (s.extent c) ∧ ∀ d ∈ s.chunksByAddress, s.nextAddress c ≠ d

theorem InHand.insertNode (h : InHand t s c hand) (habove : ∀ d ∈ s.chunksByAddress, s.nextAddress c ≠ d) :
    Core t (s.insertNode t c g) hand ∧ Moves s (s.extent c :: hand) (s.insertNode t c g) hand :=
  ⟨h.core.insertNode h.start h.size h.pos h.resident (fun d hd => ⟨h.below d hd, habove d hd⟩) fun hc => (h.clean hc).1,
    h.core.insertNode_moves h.size h.pos⟩

/-- **A chunk taken out of the trees is in hand**, and touches nothing in them. -/
theorem Core.inHand (h : Core t s hand) (hc : c ∈ s.chunksByAddress) :
    InHand t (s.remove t c g) c hand ∧ ∀ d ∈ (s.remove t c g).chunksByAddress, (s.remove t c g).nextAddress c ≠ d := by
  have hmem : ∀ d ∈ (s.remove t c g).chunksByAddress, d ∈ s.chunksByAddress := fun d hd => mem_of_mem_erase hd
  obtain ⟨hdvd, hsize, hpos⟩ := h.whole c hc
  have habove : ∀ d ∈ (s.remove t c g).chunksByAddress, (s.remove t c g).nextAddress c ≠ d := fun d hd => by
    rw [nextAddress_remove]
    exact h.parted c hc d (hmem d hd)
  have hcore : Core t (s.remove t c g) ((s.remove t c g).extent c :: hand) := by
    rw [extent_remove]
    exact h.remove hc
  refine ⟨⟨hcore, hdvd, by rwa [header_remove], by rwa [header_remove], ?_, fun d hd => ?_, fun hcl => ⟨?_, habove⟩⟩, habove⟩
  · rw [header_remove]
    exact h.resident c hc
  · rw [nextAddress_remove]
    exact h.parted d (hmem d hd) c hc
  · rw [header_remove] at hcl
    obtain ⟨h1, h2, h3⟩ := h.clean c hc hcl
    rw [extent_remove]
    refine ⟨h1, fun a ha hge => (if_neg fun hca => absurd hca.2 (Nat.not_lt.2 hge)).trans (h2 a ha hge), ?_⟩
    rw [places_remove hc]
    exact h3

/-- **A range in hand becomes a chunk**, with a header at its start. -/
theorem Core.written {r : Extent} {f : FreeChunk} (h : Core t s (r :: hand)) (hstart : t.pageSize ∣ r.start)
    (hsize : t.pageSize ∣ r.size) (hpos : 0 < r.size) (hf : f.size = r.size) (hres : f.resident ≤ f.size)
    (hbelow : ∀ d ∈ s.chunksByAddress, s.nextAddress d ≠ r.start)
    (hclean : f.clean = true → s.Clean t (r :: hand) r ∧ ∀ d ∈ s.chunksByAddress, r.stop ≠ d) :
    InHand t (s.writeHeader t r.start f g) r.start hand ∧
      Moves s (r :: hand) (s.writeHeader t r.start f g) ((s.writeHeader t r.start f g).extent r.start :: hand) := by
  have hle := t.headerSize_le.trans (t.systemPage_le hsize hpos)
  have hhand : ∀ a, r.Has a → 0 < cover (r :: hand) a := fun a ha => cover_pos.2 ⟨_, mem_cons_self, ha⟩
  have hrange : ∀ a, (⟨r.start, t.headerSize⟩ : Extent).Has a → 0 < cover (r :: hand) a := fun a ha =>
    hhand a ⟨ha.1, Nat.lt_of_lt_of_le ha.2 (Nat.add_le_add_left hle r.start)⟩
  have hfirst := hhand r.start ⟨Nat.le_refl _, Nat.lt_add_of_pos_right hpos⟩
  have hheader : (s.writeHeader t r.start f g).header r.start = f := Function.update_self ..
  have hheaders : ∀ d ∈ s.chunksByAddress, (s.writeHeader t r.start f g).header d = s.header d := fun d hd =>
    header_writeHeader fun hdr : d = r.start => h.notMem_of_hand hfirst (hdr ▸ hd)
  have hext : (s.writeHeader t r.start f g).extent r.start = r := by
    unfold State.extent
    rw [hheader, hf]
  have hplaces : ∀ a, (s.writeHeader t r.start f g).places (r :: hand) a = s.places (r :: hand) a := fun a => by
    unfold State.places
    rw [chunks_writeHeader (h.notMem_of_hand hfirst)]
    rfl
  refine ⟨⟨by rw [hext]; exact h.writeHeader hfirst hrange, hstart, by rwa [hheader, hf], by rwa [hheader, hf],
    by rwa [hheader], fun d hd => ?_, fun hcl => ?_⟩, by rw [hext]; exact h.writeHeader_moves hfirst hrange⟩
  · unfold State.nextAddress
    rw [hheaders d hd]
    exact hbelow d hd
  · rw [hheader] at hcl
    obtain ⟨⟨h1, h2, h3⟩, habove⟩ := hclean hcl
    rw [hext]
    refine ⟨⟨h1, fun a ha hge => (if_neg fun hca => absurd hca.2 (Nat.not_lt.2 hge)).trans (h2 a ha hge), ?_⟩, fun d hd => ?_⟩
    · rw [hplaces]
      exact h3
    · unfold State.nextAddress
      rw [hheader, hf]
      exact habove d hd

/-! ## Using a chunk -/

theorem putRest_memory (amount : Nat) {a : Nat} (ha : a < c + amount) :
    (s.putRest t c amount g).memory a = s.memory a := by
  have hno : ¬ (⟨c + amount, t.headerSize⟩ : Extent).Has a := fun h => absurd h.1 (Nat.not_le.2 ha)
  unfold State.putRest
  dsimp only
  split
  · exact (if_neg hno).trans (if_neg hno)
  · rfl

def State.rest (s : State) (c amount : Nat) : FreeChunk :=
  { size := (s.header c).size - amount
    resident := if (s.header c).resident > amount then (s.header c).resident - amount else 0
    clean := (s.header c).clean }

/-- **The remainder is back in the trees**, the start of the chunk still in hand. -/
theorem InHand.putRest {amount : Nat} (h : InHand t s c hand) (habove : ∀ d ∈ s.chunksByAddress, s.nextAddress c ≠ d)
    (hdvd : t.pageSize ∣ amount) (hpos : 0 < amount) (hle : amount ≤ (s.header c).size) :
    Core t (s.putRest t c amount g) (⟨c, amount⟩ :: hand) ∧
      Moves s (s.extent c :: hand) (s.putRest t c amount g) (⟨c, amount⟩ :: hand) := by
  by_cases hlt : (s.header c).size > amount
  · have hput : s.putRest t c amount g = (s.writeHeader t (c + amount) (s.rest c amount) g).insertNode t (c + amount) g :=
      if_pos hlt
    have hcut : ∀ a, cover (⟨c + amount, (s.header c).size - amount⟩ :: ⟨c, amount⟩ :: hand) a =
        cover (s.extent c :: hand) a := fun a => by
      have hsize : s.extent c = ⟨c, amount + ((s.header c).size - amount)⟩ :=
        congrArg (Extent.mk c) (Nat.add_sub_cancel' hle).symm
      rw [hsize, cover_cut, cover_perm (.swap ..)]
    have hstop : c + amount + ((s.header c).size - amount) = c + (s.header c).size := by omega
    have hbelow : ∀ d ∈ s.chunksByAddress, s.nextAddress d ≠ c + amount := fun d hd hnext => by
      -- the last byte of such a chunk would be in hand
      have hdpos := (h.core.whole d hd).2.2
      have hnext : d + (s.header d).size = c + amount := hnext
      have := h.core.hand_of_has (a := c + amount - 1) hd
        ⟨show d ≤ c + amount - 1 by omega, show c + amount - 1 < d + (s.header d).size by omega⟩
      have : 0 < cover (s.extent c :: hand) (c + amount - 1) := cover_pos.2 ⟨_, mem_cons_self,
        show c ≤ c + amount - 1 by omega, show c + amount - 1 < c + (s.header c).size by omega⟩
      omega
    have hclean : (s.rest c amount).clean = true →
        s.Clean t (⟨c + amount, (s.header c).size - amount⟩ :: ⟨c, amount⟩ :: hand)
          ⟨c + amount, (s.header c).size - amount⟩ ∧
        ∀ d ∈ s.chunksByAddress, c + amount + ((s.header c).size - amount) ≠ d := fun hcl => by
      obtain ⟨⟨⟨area, hmem, hlo, hhi⟩, h2, h3⟩, -⟩ := h.clean hcl
      have hlo : area.start ≤ c := hlo
      rw [hstop]
      refine ⟨⟨⟨area, hmem, show area.start ≤ c + amount by omega, (Nat.le_of_eq hstop).trans hhi⟩, fun a ha hge => ?_, ?_⟩,
        habove⟩
      · have h4 : c + amount ≤ a := ha.1
        have h5 : a < c + amount + ((s.header c).size - amount) := ha.2
        have hge : c + amount + t.headerSize ≤ a := hge
        exact h2 a ⟨show c ≤ a by omega, show a < c + (s.header c).size by omega⟩ (show c + t.headerSize ≤ a by omega)
      · have hplaces : s.places (⟨c + amount, (s.header c).size - amount⟩ :: ⟨c, amount⟩ :: hand) (s.extent c).stop =
            s.places (s.extent c :: hand) (s.extent c).stop := congrArg (_ + _ + ·) (hcut _)
        show 0 < s.places _ (c + amount + ((s.header c).size - amount))
        rw [hstop]
        exact hplaces ▸ h3
    obtain ⟨hin, hmoves⟩ := (h.core.hand_congr hcut).written (f := s.rest c amount) (g := g)
      ((Nat.dvd_add_iff_right h.start).1 hdvd) (Nat.dvd_sub h.size hdvd) (Nat.sub_pos_of_lt hlt) rfl
      (by have := h.resident; unfold State.rest; dsimp only; split <;> omega) hbelow hclean
    have hnext : (s.writeHeader t (c + amount) (s.rest c amount) g).nextAddress (c + amount) = s.nextAddress c := by
      unfold State.nextAddress
      rw [show (s.writeHeader t (c + amount) (s.rest c amount) g).header (c + amount) = s.rest c amount from
        Function.update_self ..]
      exact hstop
    obtain ⟨hcore, hmoves'⟩ := hin.insertNode (g := g) fun d hd => by
      rw [hnext]
      exact habove d hd
    rw [hput]
    exact ⟨hcore, (Moves.of_cover hcut).trans (hmoves.trans hmoves')⟩
  · have heq : s.extent c = ⟨c, amount⟩ := congrArg (Extent.mk c) (by omega)
    rw [show s.putRest t c amount g = s from if_neg hlt, ← heq]
    exact ⟨h.core, Moves.of_cover fun _ => rfl⟩

/-- **`_Use`**: the start of a chunk is in hand, and zero if it reports so. -/
theorem Core.use {amount : Nat} (h : Core t s hand) (hc : c ∈ s.chunksByAddress) (hdvd : t.pageSize ∣ amount)
    (hpos : 0 < amount) (hle : amount ≤ (s.header c).size) :
    Core t (s.use t c amount g).1 (⟨c, amount⟩ :: hand) ∧
      Moves { s with used := s.used + amount } hand (s.use t c amount g).1 (⟨c, amount⟩ :: hand) ∧
      ((s.use t c amount g).2 = true → ∀ a, (⟨c, amount⟩ : Extent).Has a → (s.use t c amount g).1.memory a = 0) := by
  obtain ⟨hin, habove⟩ := h.inHand (g := g) hc
  obtain ⟨hcore, hmoves⟩ := hin.putRest (g := g) habove hdvd hpos (by rw [size_remove]; exact hle)
  rw [extent_remove] at hmoves
  have hused : (s.use t c amount g).1 = ({ (s.remove t c g).putRest t c amount g with
      used := ((s.remove t c g).putRest t c amount g).used + amount } : State).writeHeader t c {}
        ⟨fun _ => 0, fun _ => {}⟩ := rfl
  have hrange : ∀ a, (⟨c, t.headerSize⟩ : Extent).Has a → 0 < cover (⟨c, amount⟩ :: hand) a := fun a ha =>
    cover_pos.2 ⟨_, mem_cons_self, ha.1,
      Nat.lt_of_lt_of_le ha.2 (Nat.add_le_add_left (t.headerSize_le.trans (t.systemPage_le hdvd hpos)) c)⟩
  have hfirst : 0 < cover (⟨c, amount⟩ :: hand) c :=
    cover_pos.2 ⟨_, mem_cons_self, Nat.le_refl _, Nat.lt_add_of_pos_right hpos⟩
  have hcounted : Core t { (s.remove t c g).putRest t c amount g with
      used := ((s.remove t c g).putRest t c amount g).used + amount } (⟨c, amount⟩ :: hand) :=
    hcore.regroup rfl fun _ => rfl
  refine ⟨by rw [hused]; exact hcounted.writeHeader hfirst hrange, ?_, fun hcl a ha => ?_⟩
  · have hm := (h.remove_moves (g := g) hc).trans hmoves
    have hcount : Moves { s with used := s.used + amount } hand { (s.remove t c g).putRest t c amount g with
        used := ((s.remove t c g).putRest t c amount g).used + amount } (⟨c, amount⟩ :: hand) :=
      ⟨congrArg (fun o : State => { o with used := o.used + amount }) hm.outside, hm.memory, hm.chunks⟩
    rw [hused]
    exact hcount.trans (hcounted.writeHeader_moves hfirst hrange)
  · rw [hused]
    show (if (⟨c, t.headerSize⟩ : Extent).Has a then (0 : UInt8) else _) = 0
    split
    · rfl
    rename_i hno
    obtain ⟨⟨-, h2, -⟩, -⟩ := hin.clean hcl
    have h3 : c ≤ a := ha.1
    have h4 : a < c + amount := ha.2
    have h5 : ¬ a < c + t.headerSize := fun h => hno ⟨h3, h⟩
    show ((s.remove t c g).putRest t c amount g).memory a = 0
    rw [putRest_memory amount h4]
    refine h2 a ⟨h3, ?_⟩ (Nat.le_of_not_lt h5)
    show a < c + ((s.remove t c g).header c).size
    rw [size_remove]
    omega

/-! ## Putting a range back -/

/-- Of the chunks before an address, the nearest is the one that ends there, if one does. -/
theorem Core.preceding (h : Core t s hand) {address : Nat} (hc : c ∈ s.chunksByAddress) (hnext : s.nextAddress c = address) :
    s.preceding address = some c := by
  have hpos := (h.whole c hc).2.2
  have hnext' : c + (s.header c).size = address := hnext
  refine max?_eq_some_iff.2 ⟨mem_filter.2 ⟨hc, decide_eq_true (by omega)⟩, fun d hd => ?_⟩
  obtain ⟨hd, hlt⟩ := mem_filter.1 hd
  have hlt := of_decide_eq_true hlt
  by_contra hcd
  have := h.eq_of_has hc hd (a := d) ⟨show c ≤ d by omega, show d < c + (s.header c).size by omega⟩ (h.has_start hd)
  omega

theorem preceding_mem {address : Nat} (hc : s.preceding address = some c) : c ∈ s.chunksByAddress :=
  (mem_filter.1 (max?_eq_some_iff.1 hc).1).1

theorem following_mem {address : Nat} (hc : s.following address = some c) : c ∈ s.chunksByAddress :=
  (mem_filter.1 (min?_eq_some_iff.1 hc).1).1

theorem following_self (hc : c ∈ s.chunksByAddress) : s.following c = some c :=
  min?_eq_some_iff.2 ⟨mem_filter.2 ⟨hc, decide_eq_true (Nat.le_refl c)⟩, fun _ hd =>
    of_decide_eq_true (mem_filter.1 hd).2⟩

/-- **The new range, with the free one before it, is one chunk in hand.** -/
theorem Core.mergePreceding {r : Extent} {resident : Nat} {clean : Bool} (h : Core t s (r :: hand))
    (hstart : t.pageSize ∣ r.start) (hsize : t.pageSize ∣ r.size) (hpos : 0 < r.size) (hres : resident ≤ r.size)
    (hclean : clean = true → s.Clean t (r :: hand) r ∧
      ∀ d ∈ s.chunksByAddress, (s.nextAddress d = r.start → (s.header d).clean = false) ∧ r.stop ≠ d) :
    InHand t (s.mergePreceding t r.start r.size resident clean g).1 (s.mergePreceding t r.start r.size resident clean g).2
      hand ∧ Moves s (r :: hand) (s.mergePreceding t r.start r.size resident clean g).1
      ((s.mergePreceding t r.start r.size resident clean g).1.extent
        (s.mergePreceding t r.start r.size resident clean g).2 :: hand) := by
  by_cases hp : ∃ p ∈ s.chunksByAddress, s.nextAddress p = r.start
  · obtain ⟨p, hp, hnext⟩ := hp
    obtain ⟨hin, -⟩ := h.inHand (g := g) hp
    have hsz : ((s.remove t p g).header p).size = (s.header p).size := size_remove p
    have hnext' : p + (s.header p).size = r.start := hnext
    have hcut : ∀ a, cover (⟨p, (s.header p).size + r.size⟩ :: hand) a =
        cover ((s.remove t p g).extent p :: r :: hand) a := fun a => by
      have hr : r = ⟨p + (s.header p).size, r.size⟩ := by rw [hnext']
      rw [cover_cut, ← hr, extent_remove]
      rfl
    have hmerge : s.mergePreceding t r.start r.size resident clean g = ((s.remove t p g).writeHeader t p
        { (s.remove t p g).header p with
          size := ((s.remove t p g).header p).size + r.size
          resident := ((s.remove t p g).header p).resident + resident
          clean := ((s.remove t p g).header p).clean && clean } g, p) := by
      unfold State.mergePreceding
      rw [h.preceding hp hnext]
      exact if_pos hnext
    have hno : (((s.remove t p g).header p).clean && clean) = false := by
      rw [header_remove]
      cases hcl : clean with
      | true  => rw [((hclean hcl).2 p hp).1 hnext, Bool.false_and]
      | false => exact Bool.and_false _
    obtain ⟨hw, hmoves⟩ := (hin.core.hand_congr hcut).written (g := g)
      (f := { (s.remove t p g).header p with
          size := ((s.remove t p g).header p).size + r.size
          resident := ((s.remove t p g).header p).resident + resident
          clean := ((s.remove t p g).header p).clean && clean })
      hin.start (Nat.dvd_add (hsz ▸ hin.size) hsize) (Nat.add_pos_right _ hpos) (congrArg (· + r.size) hsz)
      (Nat.add_le_add hin.resident hres) hin.below (fun hcl => absurd (hno.symm.trans hcl) Bool.false_ne_true)
    rw [hmerge]
    rw [extent_remove] at hcut
    exact ⟨hw, (h.remove_moves hp).trans ((Moves.of_cover hcut).trans hmoves)⟩
  · have hbelow : ∀ d ∈ s.chunksByAddress, s.nextAddress d ≠ r.start := fun d hd hnext => hp ⟨d, hd, hnext⟩
    have hmerge : s.mergePreceding t r.start r.size resident clean g =
        (s.writeHeader t r.start { size := r.size, resident, clean } g, r.start) := by
      unfold State.mergePreceding
      split
      · rename_i p hprec
        exact if_neg (hbelow p (preceding_mem hprec))
      · rfl
    rw [hmerge]
    exact h.written (f := { size := r.size, resident, clean }) hstart hsize hpos rfl hres hbelow fun hcl =>
      ⟨(hclean hcl).1, fun d hd => ((hclean hcl).2 d hd).2⟩

/-- **With the free range behind it as well, it touches nothing.** -/
theorem InHand.mergeFollowing (h : InHand t s c hand) :
    InHand t (s.mergeFollowing t c g) c hand ∧
      Moves s (s.extent c :: hand) (s.mergeFollowing t c g) ((s.mergeFollowing t c g).extent c :: hand) ∧
      ∀ d ∈ (s.mergeFollowing t c g).chunksByAddress, (s.mergeFollowing t c g).nextAddress c ≠ d := by
  by_cases hf : s.nextAddress c ∈ s.chunksByAddress
  · obtain ⟨hin, habove⟩ := h.core.inHand (g := g) hf
    generalize hfc : s.nextAddress c = f at hf hin habove
    have hfc' : c + (s.header c).size = f := hfc
    have hne : c ≠ f := by
      have := h.pos
      omega
    have hsame : (s.remove t f g).header c = s.header c := header_remove_of_ne hne
    have hsz : ((s.remove t f g).header f).size = (s.header f).size := size_remove f
    have hcut : ∀ a, cover (⟨c, (s.header c).size + (s.header f).size⟩ :: hand) a =
        cover ((s.remove t f g).extent f :: s.extent c :: hand) a := fun a => by
      rw [cover_cut, hfc', extent_remove, cover_perm (.swap ..)]
      rfl
    have hmerge : s.mergeFollowing t c g = (s.remove t f g).writeHeader t c
        { s.header c with
          size := (s.header c).size + (s.header f).size
          resident := (s.header c).resident + ((s.remove t f g).header f).resident
          clean := (s.header c).clean && ((s.remove t f g).header f).clean } g := by
      unfold State.mergeFollowing
      rw [hfc, following_self hf]
      simp only [if_true, hsame, hsz]
    have hno : (s.header c).clean = false := Bool.eq_false_iff.2 fun hcl => (h.clean hcl).2 f hf hfc
    have hmem : ∀ d ∈ (s.remove t f g).chunksByAddress, d ∈ s.chunksByAddress := fun d hd => mem_of_mem_erase hd
    obtain ⟨hw, hmoves⟩ := (hin.core.hand_congr hcut).written (g := g)
      (f := { s.header c with
          size := (s.header c).size + (s.header f).size
          resident := (s.header c).resident + ((s.remove t f g).header f).resident
          clean := (s.header c).clean && ((s.remove t f g).header f).clean })
      h.start (Nat.dvd_add h.size (hsz ▸ hin.size)) (Nat.add_pos_left h.pos _) rfl
      (Nat.add_le_add h.resident (hsz ▸ hin.resident)) (fun d hd => by rw [nextAddress_remove]; exact h.below d (hmem d hd))
      (by rw [hno, Bool.false_and]; exact fun h => nomatch h)
    rw [hmerge]
    rw [extent_remove] at hcut
    refine ⟨hw, (h.core.remove_moves hf).trans ((Moves.of_cover hcut).trans hmoves), fun d hd => ?_⟩
    have hnext : ((s.remove t f g).writeHeader t c { s.header c with
          size := (s.header c).size + (s.header f).size
          resident := (s.header c).resident + ((s.remove t f g).header f).resident
          clean := (s.header c).clean && ((s.remove t f g).header f).clean } g).nextAddress c =
        (s.remove t f g).nextAddress f := by
      rw [nextAddress_remove]
      unfold State.nextAddress
      rw [show ((s.remove t f g).writeHeader t c _ g).header c = _ from Function.update_self ..]
      show c + ((s.header c).size + (s.header f).size) = f + (s.header f).size
      omega
    rw [hnext]
    exact habove d hd
  · have hmerge : s.mergeFollowing t c g = s := by
      unfold State.mergeFollowing
      split
      · rename_i f hfol
        exact if_neg fun hfc : s.nextAddress c = f => hf (hfc.symm ▸ following_mem hfol)
      · rfl
    rw [hmerge]
    exact ⟨h, Moves.of_cover fun _ => rfl, fun d hd (hdc : s.nextAddress c = d) => hf (hdc.symm ▸ hd)⟩

theorem Core.resident_mergePreceding {address size resident : Nat} {clean : Bool} (h : Core t s hand) :
    (s.mergePreceding t address size resident clean g).1.residentFree +
      ((s.mergePreceding t address size resident clean g).1.header
        (s.mergePreceding t address size resident clean g).2).resident = s.residentFree + resident := by
  unfold State.mergePreceding State.writeHeader
  split
  · rename_i p hprec
    split
    · have hle := h.resident_le (preceding_mem hprec)
      simp only [Function.update_self, header_remove]
      show s.residentFree - (s.header p).resident + ((s.header p).resident + resident) = _
      omega
    · simp only [Function.update_self]
  · simp only [Function.update_self]

theorem InHand.resident_mergeFollowing (h : InHand t s c hand) :
    (s.mergeFollowing t c g).residentFree + ((s.mergeFollowing t c g).header c).resident =
      s.residentFree + (s.header c).resident := by
  unfold State.mergeFollowing State.writeHeader
  split
  · rename_i f hfol
    split
    · rename_i hfc
      have hne : c ≠ f := by
        have := h.pos
        have : c + (s.header c).size = f := hfc
        omega
      have hle := h.core.resident_le (following_mem hfol)
      simp only [Function.update_self, header_remove, header_remove_of_ne hne]
      show s.residentFree - (s.header f).resident + ((s.header c).resident + (s.header f).resident) = _
      omega
    · rfl
  · rfl

/-- **`_Insert`**: a range in hand is in the trees, merged with what it touches. -/
theorem Core.insert {r : Extent} (resident : Nat) (clean : Bool) (h : Core t s (r :: hand))
    (hstart : t.pageSize ∣ r.start) (hsize : t.pageSize ∣ r.size) (hpos : 0 < r.size) (hres : resident ≤ r.size)
    (hclean : clean = true → s.Clean t (r :: hand) r ∧
      ∀ d ∈ s.chunksByAddress, (s.nextAddress d = r.start → (s.header d).clean = false) ∧ r.stop ≠ d) :
    Core t (s.insert t r.start r.size resident clean g) hand ∧
      Moves s (r :: hand) (s.insert t r.start r.size resident clean g) hand := by
  obtain ⟨hin, hmoves⟩ := h.mergePreceding (g := g) hstart hsize hpos hres hclean
  obtain ⟨hin', hmoves', habove⟩ := hin.mergeFollowing (g := g)
  obtain ⟨hcore, hmoves''⟩ := hin'.insertNode (g := g) habove
  exact ⟨hcore, hmoves.trans (hmoves'.trans hmoves'')⟩

theorem Core.residentFree_insert {r : Extent} (resident : Nat) (clean : Bool) (h : Core t s (r :: hand))
    (hstart : t.pageSize ∣ r.start) (hsize : t.pageSize ∣ r.size) (hpos : 0 < r.size) (hres : resident ≤ r.size)
    (hclean : clean = true → s.Clean t (r :: hand) r ∧
      ∀ d ∈ s.chunksByAddress, (s.nextAddress d = r.start → (s.header d).clean = false) ∧ r.stop ≠ d) :
    (s.insert t r.start r.size resident clean g).residentFree = s.residentFree + resident := by
  obtain ⟨hin, -⟩ := h.mergePreceding (g := g) hstart hsize hpos hres hclean
  exact (hin.resident_mergeFollowing (g := g)).trans h.resident_mergePreceding

end Pages
end Prose
