import Prose.PagesSound
/-!
# PagesSections — the page allocator's sections

What holds between any two sections under the lock, and a lemma for each section: it keeps that, and no byte of a heap area
gets lost in it, where what is given back lies in a heap area or in none.
-/
namespace Prose
namespace Pages

open Extents State List

/-- In how many allocations, chunks, and chunks on their way to the kernel an address is. -/
def State.inPlace (s : State) (a : Nat) : Nat :=
  cover s.held a + cover s.chunks a + cover (s.discarding.map Discard.extent) a

/-- **What holds between any two sections.** -/
structure Sound (t : Target) (s : State) : Prop where
  core : Core t s []
  used : s.used = total s.held
  discards : ∀ d ∈ s.discarding, t.pageSize ∣ d.chunk ∧ t.pageSize ∣ d.size ∧ 0 < d.size
  spare : ∀ area ∈ s.heapAreas, 0 < cover s.spare area.stop
  unmapping : ∀ r ∈ s.unmapping, 0 < r.size ∧ s.inHeapArea r = false
  creating : ∀ e ∈ s.creating, ∀ a, e.Has a → s.memory a = 0

def Conserves (s s' : State) : Prop :=
  ∀ area ∈ s'.heapAreas, ∀ a, area.Has a → area ∈ s.heapAreas ∧ s.inPlace a ≤ s'.inPlace a ∨ 0 < s'.inPlace a

theorem Conserves.trans {s s' s'' : State} (h : Conserves s s') (h' : Conserves s' s'') : Conserves s s'' := by
  intro area harea a ha
  rcases h' area harea a ha with ⟨h1, h2⟩ | h1
  · rcases h area h1 a ha with ⟨h3, h4⟩ | h3
    · exact .inl ⟨h3, h4.trans h2⟩
    · exact .inr (h3.trans_le h2)
  · exact .inr h1

theorem Conserves.of_le {s s' : State} (hareas : s'.heapAreas = s.heapAreas) (h : ∀ a, s.inPlace a ≤ s'.inPlace a) :
    Conserves s s' := fun _ harea a _ => .inl ⟨hareas ▸ harea, h a⟩

variable {t : Target} {s s' : State} {g : Garbage}

theorem inPlace_le (h : Sound t s) (a : Nat) : s.inPlace a ≤ 1 := by
  have := h.core.apart a
  unfold State.places others at this
  simp only [cover_append] at this
  unfold State.inPlace
  omega

theorem inHeapArea_iff {r : Extent} : s.inHeapArea r = true ↔ ∃ area ∈ s.heapAreas, area.start ≤ r.start ∧ r.stop ≤ area.stop := by
  unfold State.inHeapArea
  simp only [any_eq_true, decide_eq_true_eq]

/-! ## The kernel's areas -/

theorem base_spec (t : Target) (reservation : Nat) :
    t.pageSize ∣ t.base reservation ∧ reservation ≤ t.base reservation ∧
      t.base reservation < reservation + t.pageSize := by
  refine ⟨Nat.dvd_mul_left .., ?_⟩
  unfold Target.base
  rw [t.pageSize_eq]
  omega

theorem Fresh.places {r : Extent} (h : s.Fresh r) {a : Nat} (ha : r.Has a) : s.places [] a = 0 := by
  have : cover s.taken a = 0 := cover_eq_zero.2 fun e he hea => Extent.apart_iff.1 (h e he) a hea ha
  rw [cover_taken] at this
  unfold State.places
  rw [this, cover_nil]

/-- **A heap area more, one clean chunk.** -/
theorem addHeapArea_sound {reservation : Nat} (h : Sound t s) (hf : s.Fresh ⟨reservation, t.heapAreaSize + t.pageSize⟩) :
    Sound t (s.addHeapArea t reservation g) ∧ Conserves s (s.addHeapArea t reservation g) := by
  obtain ⟨hdvd, hlo, hhi⟩ := base_spec t reservation
  have hpage := t.pageSize_eq
  have hsize : 0 < t.heapAreaSize ∧ t.pageSize ∣ t.heapAreaSize := by
    unfold Target.heapAreaSize
    rw [hpage]
    split <;> decide
  generalize hr : (⟨reservation, t.heapAreaSize + t.pageSize⟩ : Extent) = r at hf
  generalize harea : (⟨t.base reservation, t.heapAreaSize⟩ : Extent) = area
  have hstart : area.start = t.base reservation := by rw [← harea]
  have hlen : area.size = t.heapAreaSize := by rw [← harea]
  have hstop : area.stop = t.base reservation + t.heapAreaSize := by rw [← harea]; rfl
  have hin : ∀ a, area.Has a → r.Has a := by
    rw [← harea, ← hr]
    rintro a ⟨h1, h2⟩
    have h1 : t.base reservation ≤ a := h1
    have h2 : a < t.base reservation + t.heapAreaSize := h2
    exact ⟨show reservation ≤ a by omega, show a < reservation + (t.heapAreaSize + t.pageSize) by omega⟩
  have hend : r.Has area.stop := by
    rw [hstop, ← hr]
    exact ⟨show reservation ≤ _ by omega, show _ < reservation + (t.heapAreaSize + t.pageSize) by omega⟩
  have hcover : ∀ a, cover (r.without area) a + cover [area] a = if r.Has a then 1 else 0 := fun a => by
    have := hin a
    rw [cover_without, cover_cons, cover_nil]
    by_cases ha : area.Has a
    · simp [ha, this ha]
    · simp [ha]
  have hnone : ∀ a, ¬ area.Has a → r.Has a → 0 < cover (r.without area) a := fun a ha hra => by
    have := hcover a
    rw [if_pos hra, cover_cons, if_neg ha, cover_nil] at this
    omega
  -- the state with the area, before its chunk is in the trees
  obtain ⟨s1, hs1⟩ : ∃ s1 : State, s1 = { s with
      heapAreas := s.heapAreas ++ [area], spare := s.spare ++ r.without area }.zero area := ⟨_, rfl⟩
  have hadd : s.addHeapArea t reservation g = s1.insert t area.start area.size 0 true g := by
    rw [hs1, hstart, hlen, ← hr, ← harea]
    rfl
  have hothers : ∀ a, cover s1.others a = cover s.others a + cover (r.without area) a := fun a => by
    rw [hs1]
    unfold State.others State.zero
    simp only [cover_append]
    omega
  have hplaces : ∀ a, s1.places [area] a = s.places [] a + if r.Has a then 1 else 0 := fun a => by
    rw [← hcover]
    have := hothers a
    have hchunks : s1.chunks = s.chunks := by rw [hs1]; rfl
    unfold State.places
    rw [hchunks, cover_nil]
    omega
  have hmem : ∀ a, s.memory a = 0 → s1.memory a = 0 := fun a ha => by
    rw [hs1]
    show (if area.Has a then (0 : UInt8) else s.memory a) = 0
    rw [ha, ite_self]
  have hcore : Core t s1 [area] := by
    refine h.core.frame (by rw [hs1]; exact ⟨rfl, rfl, rfl, rfl⟩) (fun _ _ => by rw [hs1]; rfl)
      (fun e he => by rw [hs1]; exact mem_append_left _ he) (fun _ _ a _ _ ha => hmem a ha) (fun a => ?_)
      fun c _ hcl => ?_
    · have := h.core.apart a
      have := fun ha : r.Has a => Fresh.places hf ha
      rw [hplaces]
      split <;> simp_all
    · have := hcl.2.2
      rw [hplaces]
      omega
  obtain ⟨hcore', hmoves⟩ := hcore.insert (g := g) 0 true (hstart ▸ hdvd) (hlen ▸ hsize.2)
    (hlen ▸ hsize.1) (Nat.zero_le _) fun _ => by
      have hs1areas : s1.heapAreas = s.heapAreas ++ [area] := by rw [hs1]; rfl
      have hs1chunks : s1.chunksByAddress = s.chunksByAddress ∧ s1.header = s.header := by rw [hs1]; exact ⟨rfl, rfl⟩
      refine ⟨⟨⟨area, ?_, Nat.le_refl _, Nat.le_refl _⟩, fun a ha _ => ?_, ?_⟩, fun d hd => ⟨fun hnext => ?_, ?_⟩⟩
      · rw [hs1areas]
        exact mem_append_right _ mem_cons_self
      · rw [hs1]
        exact if_pos ha
      · rw [hplaces, if_pos hend]
        exact Nat.succ_pos _
      · -- what is behind a clean chunk is taken
        rw [hs1chunks.1] at hd
        rw [hs1chunks.2]
        refine Bool.eq_false_iff.2 fun hcl => ?_
        have hclean := (h.core.clean d hd hcl).2.2
        have hfresh := Fresh.places hf (a := area.start) (hin _ ⟨Nat.le_refl _, by rw [hstop, hstart]; omega⟩)
        have hnext : (s.extent d).stop = area.start := by
          rw [← hnext]
          unfold State.nextAddress
          rw [hs1chunks.2]
          rfl
        rw [hnext] at hclean
        omega
      · rintro rfl
        have hno := hcore.others_of_has hd (hcore.has_start hd)
        have := hnone area.stop (fun ha => absurd ha.2 (Nat.lt_irrefl _)) hend
        rw [hothers] at hno
        omega
  rw [hadd]
  have hheld : (s1.insert t area.start area.size 0 true g).held = s.held :=
    (hmoves.field State.held fun _ => rfl).trans (by rw [hs1]; rfl)
  have hdisc : (s1.insert t area.start area.size 0 true g).discarding = s.discarding :=
    (hmoves.field State.discarding fun _ => rfl).trans (by rw [hs1]; rfl)
  have hareas : (s1.insert t area.start area.size 0 true g).heapAreas = s.heapAreas ++ [area] :=
    (hmoves.field State.heapAreas fun _ => rfl).trans (by rw [hs1]; rfl)
  have hspare : (s1.insert t area.start area.size 0 true g).spare = s.spare ++ r.without area :=
    (hmoves.field State.spare fun _ => rfl).trans (by rw [hs1]; rfl)
  have hunmap : (s1.insert t area.start area.size 0 true g).unmapping = s.unmapping :=
    (hmoves.field State.unmapping fun _ => rfl).trans (by rw [hs1]; rfl)
  have hcreat : (s1.insert t area.start area.size 0 true g).creating = s.creating :=
    (hmoves.field State.creating fun _ => rfl).trans (by rw [hs1]; rfl)
  have hchunks : ∀ a, cover (s1.insert t area.start area.size 0 true g).chunks a =
      cover s.chunks a + if area.Has a then 1 else 0 := fun a => by
    have := hmoves.chunks a
    have hs1c : s1.chunks = s.chunks := by rw [hs1]; rfl
    rw [cover_nil, cover_cons, cover_nil, hs1c] at this
    omega
  refine ⟨⟨hcore', ?_, ?_, fun e he => ?_, fun e he => ?_, fun e he a ha => ?_⟩, fun e he a ha => ?_⟩
  · rw [hheld, hmoves.field State.used fun _ => rfl, hs1]
    exact h.used
  · rw [hdisc]
    exact h.discards
  · rw [hareas] at he
    rw [hspare, cover_append]
    rcases mem_append.1 he with he | he
    · exact Nat.add_pos_left (h.spare e he) _
    · rw [mem_singleton.1 he]
      exact Nat.add_pos_right _ (hnone _ (fun ha => absurd ha.2 (Nat.lt_irrefl _)) hend)
  · rw [hunmap] at he
    obtain ⟨hpos, hout⟩ := h.unmapping e he
    refine ⟨hpos, Bool.eq_false_iff.2 fun hin' => ?_⟩
    obtain ⟨area', hmem', h1, h2⟩ := inHeapArea_iff.1 hin'
    rw [hareas] at hmem'
    rcases mem_append.1 hmem' with hmem' | hmem'
    · exact Bool.false_ne_true (hout.symm.trans (inHeapArea_iff.2 ⟨area', hmem', h1, h2⟩))
    rw [mem_singleton.1 hmem'] at h1 h2
    have hstop' : e.stop = e.start + e.size := rfl
    have := Fresh.places hf (a := e.start) (hin _ ⟨h1, by omega⟩)
    have hpos' : 0 < cover s.others e.start := cover_pos.2 ⟨e, by
      unfold State.others
      simp only [mem_append]
      exact .inl (.inr he), Nat.le_refl _, by omega⟩
    unfold State.places at this
    omega
  · rw [hcreat] at he
    have hpos : 0 < cover s1.others a := by
      rw [hothers]
      refine Nat.add_pos_left (cover_pos.2 ⟨e, ?_, ha⟩) _
      unfold State.others
      simp only [mem_append]
      exact .inl (.inl (.inr he))
    rw [hmoves.memory a hpos]
    exact hmem a (h.creating e he a ha)
  · rw [hareas] at he
    unfold State.inPlace
    rw [hheld, hdisc, hchunks]
    rcases mem_append.1 he with he | he
    · exact .inl ⟨he, by omega⟩
    · rw [mem_singleton.1 he] at ha
      rw [if_pos ha]
      exact .inr (by omega)

/-! ## Allocating -/

/-- **The chunk that is chosen has room.** -/
theorem choose_spec {hand : List Extent} {allocate c : Nat} (h : Core t s hand) (hc : s.choose allocate = some c) :
    c ∈ s.chunksByAddress ∧ allocate ≤ (s.header c).size := by
  have hsub : ∀ d ∈ s.fitting allocate, d ∈ s.chunksByAddress := fun d hd =>
    h.bySize.mem_iff.1 ((dropWhile_sublist _).subset hd)
  unfold State.choose at hc
  split at hc
  · exact nomatch hc
  rename_i best cs hfit
  have hbest : best ∈ s.fitting allocate := hfit ▸ mem_cons_self
  have hc := Option.some.inj hc
  cases hf : ((best :: cs).take (residentSearch + 1)).find? fun c => (s.header c).resident ≥ allocate with
  | none =>
    rw [hf] at hc
    subst hc
    have hhead := head?_dropWhile_not (fun c => decide ((s.header c).size < allocate)) s.chunksBySize
    rw [show List.dropWhile _ s.chunksBySize = best :: cs from hfit] at hhead
    exact ⟨hsub _ hbest, Nat.le_of_not_lt fun hlt => Bool.false_ne_true (hhead.symm.trans (decide_eq_true hlt))⟩
  | some d =>
    rw [hf] at hc
    have hd : d = c := hc
    subst hd
    have hmem := hsub d (hfit ▸ mem_of_mem_take (mem_of_find?_eq_some hf))
    have hfound : decide ((s.header d).resident ≥ allocate) = true :=
      find?_some (p := fun c => decide ((s.header c).resident ≥ allocate)) hf
    exact ⟨hmem, le_trans (of_decide_eq_true hfound) (h.resident d hmem)⟩

/-- **The start of a chunk, handed out.** -/
theorem use_sound {c amount : Nat} {z : Bool} (h : Sound t s) (hc : c ∈ s.chunksByAddress) (hdvd : t.pageSize ∣ amount)
    (hpos : 0 < amount) (hle : amount ≤ (s.header c).size) :
    Sound t ((s.use t c amount g).1.handOut ⟨c, amount⟩ z) ∧
      Conserves s ((s.use t c amount g).1.handOut ⟨c, amount⟩ z) ∧
      ((s.use t c amount g).2 = true → ∀ a, (⟨c, amount⟩ : Extent).Has a → (s.use t c amount g).1.memory a = 0) := by
  obtain ⟨hcore, hmoves, hzero⟩ := h.core.use (g := g) hc hdvd hpos hle
  generalize (s.use t c amount g).1 = s1 at hcore hmoves hzero ⊢
  have hheld : s1.held = s.held := hmoves.field State.held fun _ => rfl
  have hdisc : s1.discarding = s.discarding := hmoves.field State.discarding fun _ => rfl
  have hareas : s1.heapAreas = s.heapAreas := hmoves.field State.heapAreas fun _ => rfl
  have hothers : ∀ a, cover (s1.handOut ⟨c, amount⟩ z).others a + cover [] a = cover s1.others a + cover [⟨c, amount⟩] a := by
    intro a
    unfold State.others State.handOut
    simp only [cover_append, cover_cons, cover_nil]
    omega
  refine ⟨⟨hcore.regroup rfl hothers, ?_, ?_, ?_, ?_, fun e he a ha => ?_⟩, Conserves.of_le hareas fun a => ?_, hzero⟩
  · show s1.used = total (⟨c, amount⟩ :: s1.held)
    rw [hmoves.field State.used fun _ => rfl, total_cons, hheld]
    show s.used + amount = amount + total s.held
    rw [h.used, Nat.add_comm]
  · show ∀ d ∈ s1.discarding, _
    rw [hdisc]
    exact h.discards
  · show ∀ area ∈ s1.heapAreas, 0 < cover s1.spare area.stop
    rw [hareas, hmoves.field State.spare fun _ => rfl]
    exact h.spare
  · show ∀ r ∈ s1.unmapping, 0 < r.size ∧ (s1.heapAreas.any _) = false
    rw [hareas, hmoves.field State.unmapping fun _ => rfl]
    exact h.unmapping
  · have he' : e ∈ s.creating := (hmoves.field State.creating fun _ => rfl) ▸ he
    refine (hmoves.memory a (cover_pos.2 ⟨e, ?_, ha⟩)).trans (h.creating e he' a ha)
    unfold State.others
    simp only [mem_append]
    exact .inl (.inl (.inr he'))
  · have := hmoves.chunks a
    rw [cover_nil] at this
    unfold State.inPlace State.handOut
    show _ ≤ cover (⟨c, amount⟩ :: s1.held) a + cover s1.chunks a + cover (s1.discarding.map _) a
    rw [hheld, hdisc, cover_cons]
    rw [cover_cons, cover_nil] at this
    have hs : cover ({ s with used := s.used + amount } : State).chunks a = cover s.chunks a := rfl
    omega

structure Given (t : Target) (s : State) (length : Nat) (z : Bool) (p : State × Option (Nat × Bool)) : Prop where
  failed : p.2 = none → Sound t p.1 ∧ Conserves s p.1
  given : ∀ address cleared, p.2 = some (address, cleared) →
    Sound t (p.1.handOut ⟨address, length⟩ z) ∧ Conserves s (p.1.handOut ⟨address, length⟩ z) ∧
      (cleared = true → ∀ a, (⟨address, length⟩ : Extent).Has a → p.1.memory a = 0)

/-- **`__allocate_pages`.** -/
theorem pages_given {length : Nat} {kernel : Option Nat} (at_ : Option Nat) (z : Bool) (h : Sound t s)
    (ha : s.Askable t length kernel) : Given t s length z (s.pages t at_ length kernel g) := by
  obtain ⟨hpos, hdvd, hkernel⟩ := ha
  have hsame : Conserves s s := Conserves.of_le rfl fun _ => Nat.le_refl _
  cases at_ with
  | some address =>
    unfold State.pages State.allocatePagesAt
    dsimp only
    split
    · rename_i hin
      obtain ⟨h1, h2, h3⟩ := use_sound (g := g) (z := z) h hin.1 hdvd hpos (Nat.le_of_not_lt hin.2)
      refine ⟨fun hno => (nomatch hno), ?_⟩
      rintro _ _ ⟨⟩
      exact ⟨h1, h2, h3⟩
    · exact ⟨fun _ => ⟨h, hsame⟩, fun _ _ hno => nomatch hno⟩
  | none =>
    unfold State.pages State.allocatePages
    dsimp only
    split
    · exact ⟨fun _ => ⟨h, hsame⟩, fun _ _ hno => nomatch hno⟩
    rename_i s1 hs1
    have h1 : Sound t s1 ∧ Conserves s s1 := by
      unfold State.grown at hs1
      split at hs1
      · split at hs1
        · exact nomatch hs1
        · obtain ⟨reservation, hr, rfl⟩ := Option.map_eq_some_iff.1 hs1
          exact addHeapArea_sound h (hkernel reservation hr)
      · rw [← Option.some.inj hs1]
        exact ⟨h, hsame⟩
    split
    · exact ⟨fun _ => h1, fun _ _ hno => nomatch hno⟩
    rename_i c hc
    obtain ⟨hmem, hle⟩ := choose_spec h1.1.core hc
    obtain ⟨h2, h3, h4⟩ := use_sound (g := g) (z := z) h1.1 hmem hdvd hpos hle
    refine ⟨fun hno => (nomatch hno), ?_⟩
    rintro _ _ ⟨⟩
    exact ⟨h2, h1.2.trans h3, h4⟩

/-! ## Giving back -/

theorem discardAbove_sound (limit : Nat) (h : Sound t s) :
    Sound t (s.discardAbove t limit g) ∧ Conserves s (s.discardAbove t limit g) := by
  have hsame : Sound t s ∧ Conserves s s := ⟨h, Conserves.of_le rfl fun _ => Nat.le_refl _⟩
  unfold State.discardAbove
  dsimp only
  split
  · split
    · exact hsame
    rename_i c hc
    have hmem : c ∈ s.chunksByAddress :=
      (mem_filter.1 (h.core.recent.mem_iff.1 (mem_of_getLast? hc))).1
    obtain ⟨hdvd, hsize, hpos⟩ := h.core.whole c hmem
    have hmoves := h.core.remove_moves (g := g) hmem
    have hcover : ∀ a, cover (List.map Discard.extent (s.discarding ++ [⟨c, (s.header c).size, limit⟩])) a =
        cover (s.discarding.map Discard.extent) a + cover [s.extent c] a := fun a => by
      rw [map_append, cover_append]
      rfl
    refine ⟨⟨(h.core.remove hmem).regroup rfl fun a => ?_, h.used, fun d hd => ?_, h.spare, h.unmapping,
      fun e he a ha => ?_⟩, Conserves.of_le rfl fun a => ?_⟩
    · have hd := hcover a
      have ho : cover (s.remove t c g).others a = cover s.others a := rfl
      rw [ho]
      unfold State.others
      simp only [cover_append] at hd ⊢
      rw [hd, cover_nil]
      show cover s.held a + _ + cover s.creating a + cover s.unmapping a + cover s.spare a + 0 = _
      omega
    · rcases mem_append.1 hd with hd | hd
      · exact h.discards d hd
      · rw [mem_singleton.1 hd]
        exact ⟨hdvd, hsize, hpos⟩
    · refine (hmoves.memory a (cover_pos.2 ⟨e, ?_, ha⟩)).trans (h.creating e he a ha)
      unfold State.others
      simp only [mem_append]
      exact .inl (.inl (.inr he))
    · have hm := hmoves.chunks a
      have hd := hcover a
      unfold State.inPlace
      show _ ≤ cover s.held a + cover (s.remove t c g).chunks a +
        cover (List.map Discard.extent (s.discarding ++ [⟨c, (s.header c).size, limit⟩])) a
      rw [hd, cover_nil] at *
      rw [cover_cons, cover_nil] at hm ⊢
      omega
  · exact hsame

/-- **A range in hand goes into the trees.** -/
theorem insert_sound {r : Extent} {resident : Nat} (hcore : Core t s [r]) (hstart : t.pageSize ∣ r.start)
    (hsize : t.pageSize ∣ r.size) (hpos : 0 < r.size) (hres : resident ≤ r.size) (hused : s.used = total s.held)
    (hdisc : ∀ d ∈ s.discarding, t.pageSize ∣ d.chunk ∧ t.pageSize ∣ d.size ∧ 0 < d.size)
    (hspare : ∀ area ∈ s.heapAreas, 0 < cover s.spare area.stop)
    (hunmapping : ∀ r ∈ s.unmapping, 0 < r.size ∧ s.inHeapArea r = false)
    (hcreating : ∀ e ∈ s.creating, ∀ a, e.Has a → s.memory a = 0) :
    Sound t (s.insert t r.start r.size resident false g) ∧
      (∀ a, (s.insert t r.start r.size resident false g).inPlace a = s.inPlace a + cover [r] a) ∧
      (s.insert t r.start r.size resident false g).heapAreas = s.heapAreas := by
  obtain ⟨hcore', hmoves⟩ := hcore.insert (g := g) resident false hstart hsize hpos hres fun hno => nomatch hno
  generalize s.insert t r.start r.size resident false g = s1 at hcore' hmoves ⊢
  have hheld : s1.held = s.held := hmoves.field State.held fun _ => rfl
  have hd : s1.discarding = s.discarding := hmoves.field State.discarding fun _ => rfl
  have hareas : s1.heapAreas = s.heapAreas := hmoves.field State.heapAreas fun _ => rfl
  refine ⟨⟨hcore', ?_, ?_, ?_, ?_, fun e he a ha => ?_⟩, fun a => ?_, hareas⟩
  · rw [hheld, hmoves.field State.used fun _ => rfl]
    exact hused
  · rw [hd]
    exact hdisc
  · rw [hareas, hmoves.field State.spare fun _ => rfl]
    exact hspare
  · unfold State.inHeapArea
    rw [hareas, hmoves.field State.unmapping fun _ => rfl]
    exact hunmapping
  · have he' : e ∈ s.creating := (hmoves.field State.creating fun _ => rfl) ▸ he
    refine (hmoves.memory a (cover_pos.2 ⟨e, ?_, ha⟩)).trans (hcreating e he' a ha)
    unfold State.others
    simp only [mem_append]
    exact .inl (.inl (.inr he'))
  · have := hmoves.chunks a
    rw [cover_nil] at this
    unfold State.inPlace
    rw [hheld, hd]
    omega

theorem givenBack {r : Extent} (h : Sound t s) (hr : Within r s.held) :
    (∀ a, cover (minus s.held r) a + cover [r] a = cover s.held a) ∧ total (minus s.held r) + r.size = s.used := by
  have hone : ∀ a, cover s.held a ≤ 1 := fun a => by
    have := inPlace_le h a
    unfold State.inPlace at this
    omega
  refine ⟨fun a => ?_, by rw [h.used, total_minus hone hr]⟩
  rw [cover_minus, cover_cons, cover_nil]
  split
  · rename_i ha
    have := hr.pos ha
    have := hone a
    omega
  · rfl

/-- The kinds of ranges the code gives back: of one heap area, or of none. -/
def OneKind (s : State) : Event → Prop
  | .free r _ => s.inHeapArea r = true ∨ ∀ area ∈ s.heapAreas, area.Apart r
  | _         => True

/-- **`FreePages`** has an outcome, and loses no byte of an area if the range lies in one or in none. -/
theorem freePages_sound {r : Extent} (h : Sound t s) (hpos : 0 < r.size) (hstart : t.pageSize ∣ r.start)
    (hsize : t.pageSize ∣ r.size) (hr : Within r s.held) :
    ∃ s', s.freePages t r g = some s' ∧ Sound t s' ∧ (OneKind s (.free r g) → Conserves s s') := by
  obtain ⟨hcover, htotal⟩ := givenBack h hr
  have hcore : Core t { s with used := s.used - r.size, held := minus s.held r } [r] :=
    h.core.regroup rfl fun a => by
      have := hcover a
      unfold State.others
      simp only [cover_append, cover_nil]
      omega
  have hused : s.used - r.size = total (minus s.held r) := by omega
  have hle : ¬ r.size > s.used := by omega
  unfold State.freePages
  rw [if_neg hle]
  dsimp only
  split
  · rename_i hin
    obtain ⟨h1, hplaces, hareas⟩ := insert_sound (g := g) hcore hstart hsize hpos (Nat.le_refl _) hused h.discards h.spare
      h.unmapping h.creating
    generalize State.insert t { s with used := s.used - r.size, held := minus s.held r } r.start r.size r.size false g = s1
      at h1 hplaces hareas ⊢
    have h2 : Sound t { s1 with recentPeak := s1.peak } :=
      ⟨h1.core.regroup rfl fun _ => rfl, h1.used, h1.discards, h1.spare, h1.unmapping, h1.creating⟩
    obtain ⟨h3, h4⟩ := discardAbove_sound (g := g) (s1.residentFreeLimit t) h2
    refine ⟨_, rfl, h3, fun _ => Conserves.trans (Conserves.of_le hareas fun a => ?_) h4⟩
    have hp := hplaces a
    have := hcover a
    have hs : ({ s with used := s.used - r.size, held := minus s.held r } : State).inPlace a =
        cover (minus s.held r) a + cover s.chunks a + cover (s.discarding.map Discard.extent) a := rfl
    show s.inPlace a ≤ s1.inPlace a
    rw [hp, hs]
    unfold State.inPlace
    omega
  · rename_i hin
    refine ⟨_, rfl, ⟨hcore.regroup rfl fun a => ?_, hused, h.discards, h.spare, fun e he => ?_, h.creating⟩,
      fun hkind area harea a ha => ?_⟩
    · unfold State.others
      simp only [cover_append, cover_nil]
      omega
    · rcases mem_append.1 he with he | he
      · exact h.unmapping e he
      · rw [mem_singleton.1 he]
        exact ⟨hpos, Bool.eq_false_iff.2 hin⟩
    · rcases hkind with hkind | hkind
      · exact absurd hkind hin
      have hno := Extent.apart_iff.1 (hkind area harea) a ha
      refine .inl ⟨harea, ?_⟩
      have := hcover a
      rw [cover_cons, if_neg hno, cover_nil] at this
      show s.inPlace a ≤ cover (minus s.held r) a + cover s.chunks a + cover (s.discarding.map Discard.extent) a
      unfold State.inPlace
      omega

theorem overwrite_core {r : Extent} {hand : List Extent} (h : Core t s hand) (hr : ∀ a, r.Has a → cover s.chunks a = 0) :
    Core t (s.overwrite t r g) hand := by
  have hno : ∀ c ∈ s.chunksByAddress, ∀ a, (s.extent c).Has a → ¬ r.Has a := fun c hc a ha hra => by
    have := hr a hra
    have : 0 < cover s.chunks a := cover_pos.2 ⟨_, extent_mem hc, ha⟩
    omega
  have hheader : ∀ c ∈ s.chunksByAddress, (s.overwrite t r g).header c = s.header c := fun c hc =>
    if_pos (Extent.apart_iff.2 fun a hra hca => hno c hc a (h.header_has hc hca) hra)
  have hchunks : (s.overwrite t r g).chunks = s.chunks :=
    map_congr_left fun c hc => congrArg (Extent.mk c) (congrArg FreeChunk.size (hheader c hc))
  have hplaces : ∀ a, (s.overwrite t r g).places hand a = s.places hand a := fun a => by
    unfold State.places
    rw [hchunks]
    rfl
  refine h.frame ⟨rfl, rfl, rfl, rfl⟩ hheader (fun _ he => he) (fun c hc a ha _ h0 => ?_) (fun a => ?_) fun c _ hcl => ?_
  · exact (if_neg (hno c hc a ha)).trans h0
  · rw [hplaces]
    exact h.apart a
  · rw [hplaces]
    exact hcl.2.2

/-- **A chunk is back from the kernel**, and holds one page. -/
theorem putBack_sound {d : Discard} (h : Sound t s) (hd : d ∈ s.discarding) :
    Sound t (s.putBack t d g) ∧ Conserves s (s.putBack t d g) ∧
      (s.putBack t d g).residentFree = s.residentFree + t.systemPage := by
  obtain ⟨hstart, hsize, hpos⟩ := h.discards d hd
  have hcover : ∀ a, cover (s.discarding.map Discard.extent) a =
      cover ((s.discarding.erase d).map Discard.extent) a + cover [d.extent] a := fun a => by
    rw [cover_perm ((perm_cons_erase hd).map Discard.extent), map_cons, cover_cons, cover_cons, cover_nil,
      Nat.zero_add]
  have hcore : Core t { s with discarding := s.discarding.erase d } [d.extent] := h.core.regroup rfl fun a => by
    have := hcover a
    unfold State.others
    simp only [cover_append, cover_nil]
    omega
  have hin : ∀ a, (⟨d.chunk + t.systemPage, d.size - t.systemPage⟩ : Extent).Has a → 0 < cover [d.extent] a :=
    fun a ha => by
      have h1 : d.chunk + t.systemPage ≤ a := ha.1
      have h2 : a < d.chunk + t.systemPage + (d.size - t.systemPage) := ha.2
      exact cover_pos.2 ⟨_, mem_cons_self, show d.chunk ≤ a by omega, show a < d.chunk + d.size by omega⟩
  have hapart := hcore.apart
  have hover : Core t (State.overwrite t { s with discarding := s.discarding.erase d }
      ⟨d.chunk + t.systemPage, d.size - t.systemPage⟩ g) [d.extent] := overwrite_core hcore fun a ha => by
    have := hin a ha
    have := hapart a
    unfold State.places at this
    omega
  have hcreating : ∀ e ∈ s.creating, ∀ a, e.Has a → (State.overwrite t { s with discarding := s.discarding.erase d }
      ⟨d.chunk + t.systemPage, d.size - t.systemPage⟩ g).memory a = 0 := fun e he a ha => by
    refine (if_neg fun hra => ?_).trans (h.creating e he a ha)
    have := hin a hra
    have := hapart a
    have : 0 < cover ({ s with discarding := s.discarding.erase d } : State).others a := cover_pos.2 ⟨e, by
      unfold State.others
      simp only [mem_append]
      exact .inl (.inl (.inr he)), ha⟩
    unfold State.places at *
    omega
  obtain ⟨h1, hplaces, hareas⟩ := insert_sound (r := d.extent) (g := g) hover hstart hsize hpos
    (t.systemPage_le hsize hpos) h.used (fun x hx => h.discards x (mem_of_mem_erase hx)) h.spare h.unmapping hcreating
  refine ⟨h1, Conserves.of_le hareas fun a => ?_, hover.residentFree_insert t.systemPage false hstart hsize hpos
    (t.systemPage_le hsize hpos) fun hno => nomatch hno⟩
  have hchunks : (State.overwrite t { s with discarding := s.discarding.erase d }
      ⟨d.chunk + t.systemPage, d.size - t.systemPage⟩ g).chunks = s.chunks := by
    refine map_congr_left fun c hc => congrArg (Extent.mk c) (congrArg FreeChunk.size (if_pos ?_))
    refine Extent.apart_iff.2 fun a hra hca => ?_
    have := hcore.hand_of_has hc (hcore.header_has hc hca)
    have := hin a hra
    omega
  have := hcover a
  refine Nat.le_trans ?_ (Nat.le_of_eq (hplaces a).symm)
  unfold State.inPlace
  rw [hchunks]
  show cover s.held a + _ + _ ≤ cover s.held a + cover s.chunks a + cover ((s.discarding.erase d).map Discard.extent) a + _
  omega

theorem discarded_sound {d : Discard} (h : Sound t s) (hd : d ∈ s.discarding) :
    Sound t (s.discarded t d g) ∧ Conserves s (s.discarded t d g) := by
  obtain ⟨h1, hback, -⟩ := putBack_sound (g := g) h hd
  obtain ⟨h2, habove⟩ := discardAbove_sound (g := g) d.limit h1
  exact ⟨h2, hback.trans habove⟩

/-- **What is unmapped is behind no clean chunk.** -/
theorem munmap_sound {r : Extent} (h : Sound t s) (hr : r ∈ s.unmapping) :
    Sound t { s with unmapping := s.unmapping.erase r } ∧ Conserves s { s with unmapping := s.unmapping.erase r } := by
  have hothers : ∀ a, cover s.others a = cover ({ s with unmapping := s.unmapping.erase r } : State).others a +
      if r.Has a then 1 else 0 := fun a => by
    have := cover_erase (a := a) hr
    unfold State.others
    simp only [cover_append]
    omega
  have hplaces : ∀ a, s.places [] a = ({ s with unmapping := s.unmapping.erase r } : State).places [] a +
      if r.Has a then 1 else 0 := fun a => by
    have := hothers a
    unfold State.places
    show _ + cover s.chunks a + _ = _ + cover s.chunks a + _ + _
    omega
  obtain ⟨hpos, hout⟩ := h.unmapping r hr
  have hmem : ∀ a, r.Has a → cover s.others a = 1 ∧ cover s.spare a = 0 := fun a ha => by
    have h1 := h.core.apart a
    have h2 := cover_erase (a := a) hr
    rw [if_pos ha] at h2
    unfold State.places State.others at *
    simp only [cover_append, cover_nil] at *
    omega
  refine ⟨⟨h.core.frame ⟨rfl, rfl, rfl, rfl⟩ (fun _ _ => rfl) (fun _ he => he) (fun _ _ _ _ _ h0 => h0) (fun a => ?_)
    fun c hc hcl => ?_, h.used, h.discards, h.spare, fun e he => h.unmapping e (mem_of_mem_erase he), h.creating⟩,
    Conserves.of_le rfl fun _ => Nat.le_refl _⟩
  · have := h.core.apart a
    have := hplaces a
    omega
  · have h1 := hplaces (s.extent c).stop
    have h2 := hcl.2.2
    by_cases ha : r.Has (s.extent c).stop
    · -- it would start there, in the area of the chunk, and end in it
      exfalso
      obtain ⟨⟨area, harea, hlo, hhi⟩, -, -⟩ := hcl
      have hlo : area.start ≤ c := hlo
      have hcpos := (h.core.whole c hc).2.2
      have hcstop : (s.extent c).stop = c + (s.header c).size := rfl
      have hrstop : r.stop = r.start + r.size := rfl
      have hastop := h.spare area harea
      have h3 : r.start = (s.extent c).stop := by
        by_contra hne
        have h4 := (hmem ((s.extent c).stop - 1) ⟨by have := ha.1; omega, by have := ha.2; omega⟩).1
        have := h.core.others_of_has (a := (s.extent c).stop - 1) hc
          ⟨show c ≤ _ by omega, show _ < c + (s.header c).size by omega⟩
        omega
      have h5 : r.stop ≤ area.stop := by
        by_contra hlt
        have := (hmem area.stop ⟨by omega, by omega⟩).2
        omega
      exact Bool.false_ne_true (hout.symm.trans (inHeapArea_iff.2 ⟨area, harea, by omega, h5⟩))
    · rw [if_neg ha] at h1
      omega

end Pages
end Prose
