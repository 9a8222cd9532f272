import Prose.GamePaneModel
/-!
# GamePaneFrames — what the frames show

A buffer that is not the shown one is nowhere the host reads, and neither is a sprite that the host has not been told of; but there is
one table of sprites, and a `Present` that fails turns the buffers all the same.
-/
namespace Prose
namespace GamePane

open List

/-! ## The layout -/

namespace Pane

variable {p : Pane}

theorem fBuffers_ge (p : Pane) : 2 ≤ p.fBuffers := by
  have := p.two_le
  unfold fBuffers paneBuffersMax
  split <;> [skip; split] <;> omega

theorem rows_le (p : Pane) : p.fStride * p.worldHeight ≤ p.fBufferStride := by
  unfold fBufferStride alignUp
  omega

theorem palette_le (p : Pane) : p.fPaletteOffset ≤ p.fSpriteTableOffset := by
  unfold fSpriteTableOffset alignUp
  omega

theorem table_le (p : Pane) : p.fSpriteTableOffset + maxSprites * spriteSize ≤ p.fSpriteArenaOffset := by
  unfold fSpriteArenaOffset alignUp
  omega

theorem arena_le (hf : p.front = true) : p.fSpriteArenaOffset + p.spriteBytes ≤ p.fFrontOffset := by
  unfold fFrontOffset fShaderOffset
  rw [if_pos hf]
  unfold alignUp
  omega

theorem buffer_le {i j : Nat} (h : i < j) : p.fBufferStride * i + p.fBufferStride ≤ p.fBufferStride * j := by
  rw [← Nat.mul_succ]
  exact Nat.mul_le_mul_left _ h

theorem plane_lt {i offset : Nat} (hi : i < p.fBuffers) (ho : offset < p.fStride * p.worldHeight) :
    p.plane false i + offset < p.fPaletteOffset := by
  have hrows := p.rows_le
  have hle := buffer_le (p := p) hi
  unfold plane fPaletteOffset
  rw [if_neg Bool.false_ne_true]
  omega

theorem front_le (hf : p.front = true) (i offset : Nat) : p.fSpriteArenaOffset + p.spriteBytes ≤ p.plane true i + offset := by
  have := arena_le hf
  unfold plane
  rw [if_pos rfl]
  omega

theorem entry_lt {i k : Nat} (hi : i < maxSprites) (hk : k < spriteSize) : p.entry i + k < p.fSpriteArenaOffset := by
  have hle := p.table_le
  have := Nat.mul_le_mul_right spriteSize (Nat.succ_le_of_lt hi)
  rw [Nat.succ_mul] at this
  unfold entry
  omega

theorem le_entry (i k : Nat) : p.fPaletteOffset ≤ p.entry i + k := by
  have := p.palette_le
  unfold entry
  omega

/-- **Two buffers have no byte in common**, of one plane or of both. -/
theorem planes_ne {front front' : Bool} {i j offset offset' : Nat} (hi : i < p.fBuffers) (hj : j < p.fBuffers) (hne : i ≠ j)
    (ho : offset < p.fStride * p.worldHeight) (ho' : offset' < p.fStride * p.worldHeight) (hf : front = true → p.front = true)
    (hf' : front' = true → p.front = true) : p.plane front i + offset ≠ p.plane front' j + offset' := by
  have hrows := p.rows_le
  have hends : p.fPaletteOffset ≤ p.fSpriteArenaOffset := by
    have := p.palette_le
    have := p.table_le
    omega
  have hsame : p.fBufferStride * i + offset ≠ p.fBufferStride * j + offset' := by
    rcases Nat.lt_or_gt_of_ne hne with h | h
    · have := buffer_le (p := p) h
      omega
    · have := buffer_le (p := p) h
      omega
  cases front with
  | false =>
    cases front' with
    | false =>
      unfold plane
      omega
    | true =>
      have := plane_lt hi ho
      have := front_le (hf' rfl) j offset'
      omega
  | true =>
    cases front' with
    | false =>
      have := plane_lt hj ho'
      have := front_le (hf rfl) i offset
      omega
    | true =>
      unfold plane
      omega

theorem plane_ne_entry {front : Bool} {i j k offset : Nat} (hi : i < p.fBuffers) (ho : offset < p.fStride * p.worldHeight)
    (hf : front = true → p.front = true) (hj : j < maxSprites) (hk : k < spriteSize) : p.plane front i + offset ≠ p.entry j + k := by
  cases front with
  | false =>
    have := plane_lt hi ho
    have := le_entry (p := p) j k
    omega
  | true =>
    have := front_le (hf rfl) i offset
    have := entry_lt (p := p) hj hk
    omega

theorem entries_ne {i j k l : Nat} (hne : i < j) (hk : k < spriteSize) : p.entry i + k ≠ p.entry j + l := by
  have := Nat.mul_le_mul_right spriteSize (Nat.succ_le_of_lt hne)
  rw [Nat.succ_mul] at this
  unfold entry
  omega

/-- **What the host reads is outside the arena.** -/
theorem arena_ne {r : Read} {count index a : Nat} (hr : r.Is p count) (hc : count ≤ maxSprites) (ha : p.fSpriteArenaOffset ≤ a)
    (ha' : a < p.fSpriteArenaOffset + p.spriteBytes) : r.address p index ≠ a := by
  cases r with
  | plane front offset =>
    have hmin : min index (p.fBuffers - 1) < p.fBuffers := by
      have := p.fBuffers_ge
      omega
    cases front with
    | false =>
      have := plane_lt hmin hr.2
      have := p.palette_le
      have := p.table_le
      show p.plane false _ + offset ≠ a
      omega
    | true =>
      have := front_le (hr.1 rfl) (min index (p.fBuffers - 1)) offset
      show p.plane true _ + offset ≠ a
      omega
  | sprite i k =>
    have := entry_lt (p := p) (Nat.lt_of_lt_of_le hr.1 hc) hr.2
    show p.entry i + k ≠ a
    omega

end Pane

/-! ## What a call stores -/

theorem storesAt_mem {at_ : Nat} {bytes : List UInt8} {a : Nat} {v : UInt8} (h : (a, v) ∈ storesAt at_ bytes) :
    at_ ≤ a ∧ a < at_ + bytes.length := by
  obtain ⟨k, hk, rfl⟩ := mem_map.1 (of_mem_zip h).1
  have := mem_range.1 hk
  omega

theorem Sprite.bytes_length (s : Sprite) : s.bytes.length = spriteSize := by
  simp only [Sprite.bytes, length_append, Bytes.le_length]
  rfl

theorem packed_length {pixels : List UInt8} {width height depth : Nat} :
    (packed pixels width height depth).length ≤ (if depth = 4 then (width + 1) / 2 else width) * height := by
  unfold packed
  split
  · have hrow (y : Nat) : (packRow (fun x => pixels.getD (y * width + x) 0) width).length = (width + 1) / 2 := by
      unfold packRow
      rw [length_map, length_range]
    simp only [length_flatMap, hrow, map_const', length_range, sum_replicate_nat]
    exact Nat.le_of_eq (Nat.mul_comm _ _)
  · rw [length_take]
    exact Nat.min_le_left _ _

/-- What is still to be stored is inside the next sprite, or inside the arena. -/
def Call.Inside (p : Pane) (s : State) (c : Call) : Prop :=
  match c.after with
  | .sprite => s.spriteCount < maxSprites ∧ ∀ a v, (a, v) ∈ c.stores → ∃ k, k < spriteSize ∧ a = p.entry s.spriteCount + k
  | .shape _ _ => ∀ a v, (a, v) ∈ c.stores → p.fSpriteArenaOffset ≤ a ∧ a < p.fSpriteArenaOffset + p.spriteBytes

def State.Matches (p : Pane) (s : State) (x : Presented) : Prop :=
  s.hostIndex = x.index ∧ s.hostCount = x.count ∧
    ∀ r : Read, r.Is p s.hostCount → s.pool (r.address p s.hostIndex) = x.pool (r.address p s.hostIndex)

/-- **The pane, and what is shown of it.** -/
structure Inv (p : Pane) (s : State) : Prop where
  front : s.front = true → p.front = true
  index : s.index < p.fBuffers
  count : s.spriteCount ≤ maxSprites
  call : ∀ c, s.call = some c → c.Inside p s
  hostIndex : s.hostIndex < p.fBuffers
  hostCount : s.hostCount ≤ maxSprites
  intact : s.intact = true → ∃ x ∈ s.presented, s.Matches p x ∧
    ∀ f, s.pass = some f → f.index = s.hostIndex ∧ f.count = s.hostCount ∧ f.Shows p x
  pass : s.pass ≠ none → s.intact = true
  frames : Kept p s

variable {p : Pane} {s s' : State}

theorem inv_start (p : Pane) : Inv p start := by
  have := p.fBuffers_ge
  have hpos : 0 < p.fBuffers := by omega
  exact ⟨nofun, hpos, Nat.zero_le _, nofun, hpos, Nat.zero_le _, nofun, fun h => absurd rfl h, nofun⟩

/-- **A byte is written**, that the host does not read or that was there, or over what it shows while it reads nothing. -/
theorem Inv.poke (h : Inv p s) {a : Nat} {v : UInt8} {above : Prop} [Decidable above]
    (hover : ¬ above → ∀ r : Read, r.Is p s.hostCount → r.address p s.hostIndex = a → s.pool a = v) (hpass : s.pass ≠ none → ¬ above) :
    Inv p (s.poke a v above) := by
  refine ⟨h.front, h.index, h.count, h.call, h.hostIndex, h.hostCount, fun hi => ?_, fun hp => ?_, h.frames⟩
  · obtain ⟨hi, ho⟩ := Bool.and_eq_true_iff.1 hi
    obtain ⟨x, hx, ⟨hindex, hcount, hreads⟩, hf⟩ := h.intact hi
    refine ⟨x, hx, ⟨hindex, hcount, fun r hr => ?_⟩, hf⟩
    refine Eq.trans ?_ (hreads r hr)
    show Function.update s.pool a v (r.address p s.hostIndex) = _
    by_cases ha : r.address p s.hostIndex = a
    · rw [ha, Function.update_self]
      exact (hover (of_decide_eq_true ho) r hr ha).symm
    · exact Function.update_of_ne ha _ _
  · exact Bool.and_eq_true_iff.2 ⟨h.pass hp, decide_eq_true (hpass hp)⟩

theorem Inv.write (h : Inv p s) {offset : Nat} {v : UInt8} (ho : offset < p.fStride * p.worldHeight)
    (hpass : s.pass ≠ none → ¬ s.overBuffer p offset v) : Inv p (s.poke (p.plane s.front s.index + offset) v (s.overBuffer p offset v)) := by
  refine h.poke (fun hover r hr ha => ?_) hpass
  have hlive : min s.hostIndex (p.fBuffers - 1) = s.hostIndex := Nat.min_eq_left (by have := h.hostIndex; omega)
  by_cases hi : s.index = s.hostIndex
  · exact by_contra fun hv => hover ⟨hi, hv⟩
  cases r with
  | plane front offset' =>
    rw [Read.address, hlive] at ha
    exact absurd ha.symm (Pane.planes_ne h.index h.hostIndex hi ho hr.2 h.front hr.1)
  | sprite i k =>
    exact absurd ha.symm (Pane.plane_ne_entry h.index ho h.front (Nat.lt_of_lt_of_le hr.1 h.hostCount) hr.2)

theorem Inv.store (h : Inv p s) {a : Nat} {v : UInt8} {rest : List (Nat × UInt8)} {after : Then}
    (hc : s.call = some ⟨(a, v) :: rest, after⟩) (hpass : s.pass ≠ none → ¬ s.overSprite) :
    Inv p { s.poke a v s.overSprite with call := some ⟨rest, after⟩ } := by
  have hin := h.call _ hc
  have hpoke : Inv p (s.poke a v s.overSprite) := by
    refine h.poke (fun hover r hr ha => ?_) hpass
    cases after with
    | sprite =>
      obtain ⟨k, hk, hak⟩ := hin.2 a v mem_cons_self
      unfold State.overSprite at hover
      rw [hc] at hover
      by_cases hi : s.spriteCount < s.hostCount
      · exact by_contra fun hv => hover ⟨hi, hv⟩
      have hmin : min s.hostIndex (p.fBuffers - 1) < p.fBuffers := by
        have := p.fBuffers_ge
        omega
      rw [hak] at ha
      cases r with
      | plane front offset => exact absurd ha (Pane.plane_ne_entry hmin hr.2 hr.1 hin.1 hk)
      | sprite i l => exact absurd ha (Pane.entries_ne (Nat.lt_of_lt_of_le hr.1 (Nat.le_of_not_lt hi)) hr.2)
    | shape shape need =>
      obtain ⟨hle, hlt⟩ := hin a v mem_cons_self
      exact absurd ha (Pane.arena_ne hr h.hostCount hle hlt)
  refine ⟨hpoke.front, hpoke.index, hpoke.count, fun c hc' => ?_, hpoke.hostIndex, hpoke.hostCount, hpoke.intact, hpoke.pass, hpoke.frames⟩
  cases hc'
  cases after with
  | sprite => exact ⟨hin.1, fun b w hb => hin.2 b w (mem_cons_of_mem _ hb)⟩
  | shape shape need => exact fun b w hb => hin b w (mem_cons_of_mem _ hb)

theorem Inv.finish (h : Inv p s) {after : Then} (hc : s.call = some ⟨[], after⟩) : Inv p (s.finish after) := by
  have hin := h.call _ hc
  cases after with
  | sprite => exact ⟨h.front, h.index, hin.1, nofun, h.hostIndex, h.hostCount, h.intact, h.pass, h.frames⟩
  | shape shape need => exact ⟨h.front, h.index, h.count, nofun, h.hostIndex, h.hostCount, h.intact, h.pass, h.frames⟩

theorem Inv.define (h : Inv p s) (pixels : List UInt8) (width height depth : Nat) : Inv p (s.define p pixels width height depth) := by
  unfold State.define
  have hlength : (packed pixels width height depth).length ≤ _ := packed_length
  generalize (if depth = 4 then (width + 1) / 2 else width) = stride at hlength ⊢
  split
  · exact h
  dsimp only
  split
  · exact h
  rename_i hroom
  refine ⟨h.front, h.index, h.count, fun c hc => ?_, h.hostIndex, h.hostCount, h.intact, h.pass, h.frames⟩
  cases hc
  intro a v ha
  obtain ⟨hle, hlt⟩ := storesAt_mem ha
  have hneed := Nat.le_of_not_lt hroom
  unfold alignUp at hneed
  omega

theorem Inv.draw (h : Inv p s) (shape : Nat) (x y scale rotation alpha : UInt32) (palette : UInt8) (flags : UInt32) :
    Inv p (s.draw p shape x y scale rotation alpha palette flags) := by
  unfold State.draw
  split
  · exact h
  split
  · exact h
  rename_i hroom
  refine ⟨h.front, h.index, h.count, fun c hc => ?_, h.hostIndex, h.hostCount, h.intact, h.pass, h.frames⟩
  cases hc
  refine ⟨Nat.lt_of_not_le hroom, fun a v ha => ?_⟩
  obtain ⟨hle, hlt⟩ := storesAt_mem ha
  rw [Sprite.bytes_length] at hlt
  exact ⟨a - p.entry s.spriteCount, by omega, (Nat.add_sub_cancel' hle).symm⟩

theorem next_lt (p : Pane) (i : Nat) : (i + 1) % p.fBuffers < p.fBuffers := by
  have := p.fBuffers_ge
  exact Nat.mod_lt _ (by omega)

theorem Inv.takes (h : Inv p s) : s.panePresent p s.index s.spriteCount = { s with hostIndex := s.index, hostCount := s.spriteCount } := by
  have hi := h.index
  have hc := h.count
  exact if_neg (by omega)

theorem Inv.present (h : Inv p s) (hcall : s.call = none) :
    ∀ {o : Outcome}, (o = .taken → s.pass = none) → Inv p (s.present p o)
  | .taken, hp => by
    unfold State.present
    dsimp only
    rw [h.takes]
    refine ⟨h.front, next_lt p _, h.count, fun c hc => ?_, h.index, h.count, fun _ => ?_, fun _ => rfl, fun f hf => ?_⟩
    · exact nomatch hcall.symm.trans hc
    · refine ⟨_, mem_append_right _ mem_cons_self, ⟨rfl, rfl, fun _ _ => rfl⟩, fun f hf => ?_⟩
      exact nomatch (hp rfl).symm.trans hf
    · obtain ⟨x, hx, hshows⟩ := h.frames f hf
      exact ⟨x, mem_append_left _ hx, hshows⟩
  | .refused, _ | .lost, _ => ⟨h.front, next_lt p _, h.count, h.call, h.hostIndex, h.hostCount, h.intact, h.pass, h.frames⟩

/-- **Every step.** -/
theorem Inv.step (p : Pane) (s : State) (e : Event) (s' : State) (h : Inv p s) (hfine : Fine p s e) (hs : s.step p e = some s') :
    Inv p s' := by
  cases e with
  | setPlane front =>
    unfold State.step at hs
    dsimp only at hs
    split at hs
    · cases hs
      exact h
    rename_i hf
    cases hs
    refine ⟨fun ht => ?_, h.index, h.count, h.call, h.hostIndex, h.hostCount, h.intact, h.pass, h.frames⟩
    exact by_contra fun hn => hf ⟨ht, hn⟩
  | write offset v =>
    obtain ⟨ho, hs⟩ := Option.ite_none_right_eq_some.1 hs
    cases hs
    exact h.write ho hfine
  | defineSprite pixels width height depth =>
    obtain ⟨-, hs⟩ := Option.ite_none_right_eq_some.1 hs
    cases hs
    exact h.define pixels width height depth
  | clearSprites =>
    obtain ⟨hc, hs⟩ := Option.ite_none_right_eq_some.1 hs
    cases hs
    refine ⟨h.front, h.index, Nat.zero_le _, fun c hc' => ?_, h.hostIndex, h.hostCount, h.intact, h.pass, h.frames⟩
    exact nomatch hc.symm.trans hc'
  | drawSprite shape x y scale rotation alpha palette flags =>
    obtain ⟨-, hs⟩ := Option.ite_none_right_eq_some.1 hs
    cases hs
    exact h.draw shape x y scale rotation alpha palette flags
  | store =>
    unfold State.step at hs
    dsimp only at hs
    split at hs
    · exact nomatch hs
    · next after hc =>
      cases hs
      exact h.finish hc
    · next a v rest after hc =>
      cases hs
      exact h.store hc hfine
  | present outcome =>
    obtain ⟨⟨hc, hp⟩, hs⟩ := Option.ite_none_right_eq_some.1 hs
    cases hs
    exact h.present hc hp
  | late k =>
    unfold State.step at hs
    dsimp only at hs
    split at hs
    · exact nomatch hs
    rename_i index count hk
    obtain ⟨hp, hs⟩ := Option.ite_none_right_eq_some.1 hs
    cases hs
    unfold State.panePresent
    split
    · exact ⟨h.front, h.index, h.count, h.call, h.hostIndex, h.hostCount, nofun, fun hn => absurd hp hn, h.frames⟩
    · next hin =>
      exact ⟨h.front, h.index, h.count, h.call, Nat.lt_of_not_le fun hle => hin (.inl hle),
        Nat.le_of_not_lt fun hlt => hin (.inr hlt), nofun, fun hn => absurd hp hn, h.frames⟩
  | passBegin =>
    obtain ⟨-, hs⟩ := Option.ite_none_right_eq_some.1 hs
    cases hs
    refine ⟨h.front, h.index, h.count, h.call, h.hostIndex, h.hostCount, fun hi => ?_, fun _ => hfine, h.frames⟩
    obtain ⟨x, hx, hm, -⟩ := h.intact hi
    refine ⟨x, hx, hm, fun f hf => ?_⟩
    cases hf
    exact ⟨rfl, rfl, hm.1, hm.2.1, nofun⟩
  | passRead r =>
    unfold State.step at hs
    dsimp only at hs
    split at hs
    · exact nomatch hs
    rename_i f hf
    obtain ⟨hr, hs⟩ := Option.ite_none_right_eq_some.1 hs
    cases hs
    have hi : s.intact = true := h.pass (by rw [hf]; exact nofun)
    refine ⟨h.front, h.index, h.count, h.call, h.hostIndex, h.hostCount, fun _ => ?_, fun _ => hi, h.frames⟩
    obtain ⟨x, hx, hm, hpass⟩ := h.intact hi
    refine ⟨x, hx, hm, fun g hg => ?_⟩
    cases hg
    obtain ⟨hindex, hcount, hshows⟩ := hpass f hf
    refine ⟨hindex, hcount, hshows.1, hshows.2.1, fun r' v hv => ?_⟩
    rcases mem_cons.1 hv with hv | hv
    · obtain ⟨rfl, rfl⟩ := Prod.mk.inj hv
      show s.pool (r'.address p f.index) = x.pool (r'.address p f.index)
      rw [hindex]
      exact hm.2.2 r' (hcount ▸ hr)
    · exact hshows.2.2 r' v hv
  | passEnd =>
    unfold State.step at hs
    dsimp only at hs
    split at hs
    · exact nomatch hs
    rename_i f hf
    cases hs
    have hi : s.intact = true := h.pass (by rw [hf]; exact nofun)
    obtain ⟨x, hx, hm, hpass⟩ := h.intact hi
    refine ⟨h.front, h.index, h.count, h.call, h.hostIndex, h.hostCount, fun _ => ⟨x, hx, hm, nofun⟩, fun _ => hi, fun g hg => ?_⟩
    rcases mem_append.1 hg with hg | hg
    · exact h.frames g hg
    · rw [mem_singleton.1 hg]
      exact ⟨x, hx, (hpass f hf).2.2⟩

instance (p : Pane) (s : State) : ∀ e, Decidable (Fine p s e)
  | .passBegin | .write _ _ | .store => by
    unfold Fine
    infer_instance
  | .setPlane _ | .defineSprite _ _ _ _ | .clearSprites | .drawSprite _ _ _ _ _ _ _ _ | .present _ | .late _ | .passRead _ | .passEnd =>
    isTrue trivial

def small : Pane where
  worldWidth := 2
  worldHeight := 1
  buffers := 2
  spriteBytes := 64
  front := true
  poolOffset := 4096
  two_le := Nat.le_refl 2

def spriteAt (x : UInt32) : List Event := .drawSprite 0 x 0 0 0 0 0 0 :: List.replicate 49 .store

/-- One shape, one sprite of it, and a `Present`. -/
def firstFrame : List Event :=
  [.defineSprite [1] 1 1 8, .store, .store] ++ spriteAt 5 ++ [.write 0 1, .present .taken]

/-- A second frame is drawn while the first is shown, and presented before the sprites of the third are. -/
def twoFrames : List Event :=
  firstFrame ++ [.write 0 2, .passBegin, .passRead (.plane false 0), .write 1 3, .setPlane true, .passRead (.sprite 0 0), .write 0 4,
    .passRead (.plane true 0), .passEnd, .clearSprites] ++ spriteAt 9 ++
    [.present .taken, .passBegin, .passRead (.sprite 0 0), .passRead (.plane false 1), .passEnd]

theorem twoFrames_runs : (Runs.run (State.step small) start twoFrames).isSome = true := by decide

example : ((Runs.run (State.step small) start twoFrames).map fun s => s.frames.map Frame.reads) =
    some [[(.plane true 0, 0), (.sprite 0 0, 5), (.plane false 0, 1)], [(.plane false 1, 3), (.sprite 0 0, 9)]] := by decide

theorem not_kept {f : Frame} {r : Read} {v : UInt8} (hf : f ∈ s.frames) (hr : (r, v) ∈ f.reads)
    (hx : ∀ x ∈ s.presented, x.pool (r.address p f.index) ≠ v) : ¬ Kept p s := fun hk => by
  obtain ⟨x, hmem, -, -, hreads⟩ := hk f hf
  exact hx x hmem (hreads r v hr).symm

/-- The sprites of the second frame are drawn before the host has shown the first. -/
def spritesAgain : List Event := firstFrame ++ [.clearSprites] ++ spriteAt 9 ++ [.passBegin, .passRead (.sprite 0 0), .passEnd]

end GamePane
end Prose
