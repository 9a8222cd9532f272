import Prose.ArenaKept
/-!
# ArenaRuns — runs of the game panes

The driver adds and multiplies a client's 64-bit fields and compares what is left of the sum, and of the palette block it looks at
the first byte only; so a client can describe to the host what is another's.
-/
namespace Prose
namespace Arena

open List

section
variable {pool : Pool} {s s' : State} {size at' : UInt64} {p : Pane} {a : Alloc}

/-! ## What is described -/

theorem ite_none {c : Prop} [Decidable c] {x : Status} {y : Option Status} (h : (if c then some x else y) = none) :
    ¬ c ∧ y = none := by
  split at h
  · exact nomatch h
  · next hc => exact ⟨hc, h⟩

theorem bad_eq_false (h : a.bad size = false) : a.bufferOffset < size ∧ a.paletteOffset < size ∧
    (if a.format = b8g8r8x8 then a.worldWidth * 4 else a.worldWidth) ≤ a.stride ∧
    a.stride.toUInt64 * a.worldHeight.toUInt64 ≤ a.bufferStride ∧
    a.bufferOffset + a.bufferStride * a.buffers.toUInt64 ≤ size ∧
    (a.frontOffset ≠ 0 → a.frontOffset + a.bufferStride * a.buffers.toUInt64 ≤ size) := by
  unfold Alloc.bad at h
  simp only [Bool.or_eq_false_iff, decide_eq_false_iff_not, Bool.and_eq_false_iff, ge_iff_le, gt_iff_lt,
    UInt64.not_le, UInt64.not_lt, UInt32.not_lt] at h
  obtain ⟨⟨⟨⟨⟨h1, h2⟩, h3⟩, h4⟩, h5⟩, h6⟩ := h
  refine ⟨h1, h2, h3, h4, h5, fun hne => ?_⟩
  rcases h6 with h6 | h6
  · exact absurd hne h6
  · exact h6

theorem early_none (h : a.early pool = none) : a.size.toNat ≤ pool.arenaSize.toNat ∧ 1 ≤ a.buffers.toNat ∧ 1 ≤ a.worldHeight.toNat := by
  unfold Alloc.early at h
  obtain ⟨-, h⟩ := ite_none h
  obtain ⟨hsize, h⟩ := ite_none h
  obtain ⟨hbuffers, h⟩ := ite_none h
  obtain ⟨hworld, -⟩ := ite_none h
  rw [not_or] at hsize hbuffers hworld
  refine ⟨UInt64.le_iff_toNat_le.1 (UInt64.not_lt.1 hsize.2), UInt32.le_iff_toNat_le.1 (UInt32.not_lt.1 hbuffers.1), ?_⟩
  exact Nat.pos_of_ne_zero fun he => hworld.2 (UInt32.toNat_inj.1 he)

theorem toNat_mul_32 (x y : UInt32) : (x.toUInt64 * y.toUInt64).toNat = x.toNat * y.toNat := by
  rw [UInt64.toNat_mul, UInt32.toNat_toUInt64, UInt32.toNat_toUInt64]
  refine Nat.mod_eq_of_lt ?_
  calc x.toNat * y.toNat < 2 ^ 32 * 2 ^ 32 := Nat.mul_lt_mul'' x.toNat_lt y.toNat_lt
    _ = 2 ^ 64 := rfl

/-- **So many planes** are as long as the strides say, where a row is no longer than its stride. -/
theorem planeBytes_eq {buffers : UInt32} {bufferStride : UInt64} {height stride : UInt32} {row : Nat} (hbuffers : 1 ≤ buffers.toNat)
    (hheight : 1 ≤ height.toNat) (hrow : row ≤ stride.toNat) (hstride : stride.toNat * height.toNat ≤ bufferStride.toNat) :
    planeBytes buffers bufferStride height stride row = bufferStride.toNat * buffers.toNat := by
  unfold planeBytes
  refine Nat.max_eq_left ?_
  have hrows : (height.toNat - 1) * stride.toNat + row ≤ bufferStride.toNat := by
    calc (height.toNat - 1) * stride.toNat + row ≤ (height.toNat - 1) * stride.toNat + stride.toNat := Nat.add_le_add_left hrow _
      _ = height.toNat * stride.toNat := by rw [← Nat.succ_mul, Nat.succ_eq_add_one, Nat.sub_add_cancel hheight]
      _ ≤ bufferStride.toNat := by rw [Nat.mul_comm]; exact hstride
  calc (buffers.toNat - 1) * bufferStride.toNat + (height.toNat - 1) * stride.toNat + row
      ≤ (buffers.toNat - 1) * bufferStride.toNat + bufferStride.toNat := by omega
    _ = bufferStride.toNat * buffers.toNat := by
      rw [← Nat.succ_mul, Nat.succ_eq_add_one, Nat.sub_add_cancel hbuffers, Nat.mul_comm]

/-- **A create describes its own allocation**, if nothing of it wraps. -/
theorem create_ranges (hearly : a.early pool = none) (hbad : a.bad (alignUp a.size) = false) (hfine : a.Fine) {slot : Nat}
    (hat : at'.toNat + (alignUp a.size).toNat < 2 ^ 63) :
    ∀ r ∈ (a.create slot at').ranges, Inside at'.toNat (alignUp a.size).toNat r := by
  obtain ⟨hwidth, hworld, hfront, hpalette⟩ := hfine hbad
  obtain ⟨hbuffer, hpal, hstride, hbufferStride, hsum, hfsum⟩ := bad_eq_false hbad
  obtain ⟨-, hbuffers, hheight⟩ := early_none hearly
  have hbytes : (a.bufferStride * a.buffers.toUInt64).toNat = a.bufferStride.toNat * a.buffers.toNat := by
    rw [UInt64.toNat_mul, UInt32.toNat_toUInt64]
    exact Nat.mod_eq_of_lt (by omega)
  have hrow : rowBytes a.format a.worldWidth ≤ a.stride.toNat ∧ a.worldWidth.toNat ≤ a.stride.toNat := by
    unfold rowBytes
    split at hstride
    · next hf =>
      have hmul : (a.worldWidth * 4).toNat = a.worldWidth.toNat * 4 := by
        rw [UInt32.toNat_mul]
        exact Nat.mod_eq_of_lt (hwidth hf)
      rw [UInt32.le_iff_toNat_le, hmul] at hstride
      rw [if_pos hf]
      omega
    · next hf =>
      rw [if_neg hf]
      exact ⟨UInt32.le_iff_toNat_le.1 hstride, UInt32.le_iff_toNat_le.1 hstride⟩
  have hrows : a.stride.toNat * a.worldHeight.toNat ≤ a.bufferStride.toNat := by
    rw [← toNat_mul_32]
    exact UInt64.le_iff_toNat_le.1 hbufferStride
  -- one plane block, at an offset of the client's that does not wrap
  have hblock (offset : UInt64) (row : Nat) (hr : row ≤ a.stride.toNat)
      (hno : offset.toNat + a.bufferStride.toNat * a.buffers.toNat < 2 ^ 64)
      (hle : offset + a.bufferStride * a.buffers.toUInt64 ≤ alignUp a.size) :
      Inside at'.toNat (alignUp a.size).toNat
        ((at' + offset).toNat, planeBytes a.buffers a.bufferStride a.worldHeight a.stride row) := by
    rw [UInt64.le_iff_toNat_le, UInt64.toNat_add, hbytes, Nat.mod_eq_of_lt hno] at hle
    have hsumAt : (at' + offset).toNat = at'.toNat + offset.toNat := by
      rw [UInt64.toNat_add]
      exact Nat.mod_eq_of_lt (by omega)
    unfold Inside
    rw [planeBytes_eq hbuffers hheight hr hrows, hsumAt]
    omega
  intro r hr
  unfold Alloc.create Command.ranges at hr
  rcases mem_cons.1 hr with rfl | hr
  · exact hblock _ _ hrow.1 hworld hsum
  rcases mem_cons.1 hr with rfl | hr
  · have hsumAt : (at' + a.paletteOffset).toNat = at'.toNat + a.paletteOffset.toNat := by
      rw [UInt64.toNat_add]
      exact Nat.mod_eq_of_lt (by omega)
    unfold Inside
    rw [hsumAt]
    omega
  · by_cases hf : a.frontOffset = 0
    · rw [if_pos (by rw [if_neg (not_not.2 hf)])] at hr
      exact nomatch hr
    rw [if_pos hf] at hr
    split at hr
    · exact nomatch hr
    · rw [mem_singleton.1 hr]
      exact hblock _ _ hrow.2 (hfront hf) (hfsum hf)

/-- The sprite table and the shader's source are inside their pane, or there are none. -/
theorem sub_range {count : UInt32} {offset : UInt64} (item : UInt64) (hitem : item.toNat ≤ 64) (hp : p.offset.toNat + p.size.toNat < 2 ^ 62)
    (h : ¬ (count > 0 ∧ (offset ≥ p.size ∨ offset + count.toUInt64 * item > p.size))) (hcount : count ≠ 0) :
    Inside p.offset.toNat p.size.toNat ((p.offset + offset).toNat, count.toNat * item.toNat) := by
  have hpos : count > 0 := by
    rw [gt_iff_lt, UInt32.lt_iff_toNat_lt]
    exact Nat.pos_of_ne_zero fun he => hcount (UInt32.toNat_inj.1 he)
  rw [not_and, not_or] at h
  obtain ⟨hlt, hle⟩ := h hpos
  have hlt := UInt64.lt_iff_toNat_lt.1 (UInt64.not_le.1 hlt)
  have hcountLt : count.toNat * item.toNat < 2 ^ 32 * 65 := Nat.mul_lt_mul'' count.toNat_lt (by omega)
  have hbytes : (count.toUInt64 * item).toNat = count.toNat * item.toNat := by
    rw [UInt64.toNat_mul, UInt32.toNat_toUInt64]
    exact Nat.mod_eq_of_lt (by omega)
  have hle : (offset + count.toUInt64 * item).toNat ≤ p.size.toNat := UInt64.le_iff_toNat_le.1 (UInt64.not_lt.1 hle)
  rw [UInt64.toNat_add, hbytes, Nat.mod_eq_of_lt (by omega)] at hle
  have hsum : (p.offset + offset).toNat = p.offset.toNat + offset.toNat := by
    rw [UInt64.toNat_add]
    exact Nat.mod_eq_of_lt (by omega)
  unfold Inside
  rw [hsum]
  omega

/-! ## Requests -/

structure Inv (pool : Pool) (s : State) : Prop where
  panes : Panes pool s.panes
  refused : ∀ r ∈ s.refused, ∀ g, Inside pool.arenaOffset.toNat pool.arenaSize.toNat (g, r.size.toNat) →
    ∃ p ∈ r.panes, p.used = true ∧ FirstFit.Overlaps g r.size.toNat p.range
  ranges : ∀ x ∈ s.sent, ∀ r ∈ x.command.ranges, Inside x.base.toNat x.size.toNat r
  owner : ∀ x ∈ s.sent, ∀ team, x.asked = some team → team = x.owner

theorem Inv.kept (h : Inv pool s) : Kept pool s := ⟨h.panes.disjoint, h.panes.inside, h.refused, h.ranges, h.owner⟩

theorem Inv.sends (h : Inv pool s) {x : Sent} (hranges : ∀ r ∈ x.command.ranges, Inside x.base.toNat x.size.toNat r)
    (howner : ∀ team, x.asked = some team → team = x.owner) : Inv pool { s with sent := x :: s.sent } :=
  ⟨h.panes, h.refused, fun y hy => (mem_cons.1 hy).elim (fun he => he ▸ hranges) (h.ranges y),
    fun y hy => (mem_cons.1 hy).elim (fun he => he ▸ howner) (h.owner y)⟩

theorem reapFrom_used (gone : Nat → Bool) : ∀ {ps : List Pane} {k i : Nat} {p : Pane}, (reapFrom gone k ps)[i]? = some p →
    p.used = true → ps[i]? = some p
  | [], _, _, _, h, _ => nomatch h
  | q :: ps, k, 0, p, h, hu => by
    have h := Option.some.inj h
    split at h
    · rw [← h] at hu
      exact nomatch hu
    · rw [← h]
      rfl
  | q :: ps, k, i + 1, p, h, hu => @reapFrom_used gone ps (k + 1) i p h hu

theorem reapFrom_length (gone : Nat → Bool) : ∀ {ps : List Pane} {k : Nat}, (reapFrom gone k ps).length = ps.length
  | [], _ => rfl
  | _ :: ps, k => congrArg Nat.succ (@reapFrom_length gone ps (k + 1))

/-- What the driver sends for those who are gone describes nothing, and nobody has asked for it. -/
theorem reaped_sent (gone : Nat → Bool) : ∀ {ps : List Pane} {k : Nat}, ∀ x ∈ reaped gone k ps, x.asked = none ∧ x.command.ranges = []
  | [], _, _, hx => nomatch hx
  | q :: ps, k, x, hx => by
    unfold reaped at hx
    split at hx
    · rcases mem_cons.1 hx with rfl | hx
      · exact ⟨rfl, rfl⟩
      · exact reaped_sent gone x hx
    · exact reaped_sent gone x hx

/-- **`prds_pane_reap`.** -/
theorem Inv.reap (h : Inv pool s) (gone : Nat → Bool) : Inv pool (s.reap gone) := by
  refine ⟨h.panes.shrink (reapFrom_length gone) fun i p hi hu => reapFrom_used gone hi hu, h.refused, fun x hx => ?_, fun x hx => ?_⟩
  · rcases mem_append.1 hx with hx | hx
    · rw [(reaped_sent gone x hx).2]
      exact nofun
    · exact h.ranges x hx
  · rcases mem_append.1 hx with hx | hx
    · rw [(reaped_sent gone x hx).1]
      exact nofun
    · exact h.owner x hx

/-- **`prds_pane_alloc`.** -/
theorem Inv.alloc (h : Inv pool s) {team : Int} {gone : Nat → Bool} {host : Bool} (hfine : a.Fine) :
    Inv pool (s.alloc pool team gone host a).1 := by
  unfold State.alloc
  split
  · exact h
  next hearly =>
  have hr := h.reap gone
  dsimp only
  split
  · exact hr
  next slot _ =>
  obtain ⟨hsize, -, -⟩ := early_none hearly
  have hmapped := pool.mapped
  have hasked : a.size.toNat < 2 ^ 62 := by omega
  obtain ⟨hdvd, -, hlt⟩ := alignUp_spec hasked
  obtain ⟨⟨hlow, htop, hat⟩, hfree, -⟩ := place_spec hr.panes hasked
  have hk : shmAlignment.toNat = 16384 := rfl
  rw [show walk (alignUp a.size) (s.reap gone).panes (maxPanes + 1) pool.arenaOffset = place pool (alignUp a.size) (s.reap gone).panes
    from rfl]
  have hsum : (place pool (alignUp a.size) (s.reap gone).panes + alignUp a.size).toNat =
      (place pool (alignUp a.size) (s.reap gone).panes).toNat + (alignUp a.size).toNat := by
    rw [UInt64.toNat_add]
    unfold Pool.top at htop
    omega
  have htopSum : (pool.arenaOffset + pool.arenaSize).toNat = pool.top := by
    rw [UInt64.toNat_add]
    exact Nat.mod_eq_of_lt (by omega)
  split
  · next hno =>
    rw [gt_iff_lt, UInt64.lt_iff_toNat_lt, hsum, htopSum] at hno
    refine ⟨hr.panes, fun r hx g hg => ?_, hr.ranges, hr.owner⟩
    rcases mem_cons.1 hx with rfl | hx
    · exact place_refused hr.panes hasked hno hg
    · exact hr.refused r hx g hg
  next hfits =>
  rw [gt_iff_lt, UInt64.lt_iff_toNat_lt, hsum, htopSum, Nat.not_lt] at hfits
  split
  · exact hr
  next hbad =>
  have hsent := hr.sends (x := ⟨some team, team, place pool (alignUp a.size) (s.reap gone).panes, alignUp a.size,
    a.create slot (place pool (alignUp a.size) (s.reap gone).panes)⟩)
    (create_ranges hearly (Bool.eq_false_iff.2 hbad) hfine (by unfold Pool.top at hfits; omega))
    fun t ht => (Option.some.inj ht).symm
  split
  · refine ⟨hr.panes.add ⟨hlow, hfits⟩ ⟨hat, hdvd⟩ hfree, hsent.refused, hsent.ranges, hsent.owner⟩
  · exact hsent

/-- **A command of the owner** is about a pane that is used. -/
theorem check_ok {team : Int} {id : UInt32} (h : s.check team id = .ok) :
    s.panes[id.toNat]? = some (s.pane id) ∧ (s.pane id).used = true ∧ (s.pane id).team = team := by
  unfold State.check at h
  unfold State.pane
  cases hp : s.panes[id.toNat]? with
  | none =>
    rw [hp] at h
    exact nomatch h
  | some p =>
    rw [hp] at h
    dsimp only at h
    split at h
    · exact nomatch h
    rename_i hu
    split at h
    · next ht => exact ⟨rfl, by simpa using hu, ht⟩
    · exact nomatch h

theorem Inv.pane_lt (h : Inv pool s) {team : Int} {id : UInt32} (hc : s.check team id = .ok) :
    (s.pane id).offset.toNat + (s.pane id).size.toNat < 2 ^ 62 := by
  obtain ⟨hp, hu, -⟩ := check_ok hc
  have hin := (h.panes.inside _ (mem_of_getElem? hp) hu).2
  have := pool.mapped
  exact hin.trans_lt this

theorem Inv.send (h : Inv pool s) {team : Int} {id : UInt32} {host : Bool} {c : Command} (hc : s.check team id = .ok)
    (hranges : ∀ r ∈ c.ranges, Inside (s.pane id).offset.toNat (s.pane id).size.toNat r) : Inv pool (s.send team id host c).1 :=
  h.sends hranges fun _ ht => (Option.some.inj ht).symm.trans (check_ok hc).2.2.symm

/-- **Every request.** -/
theorem Inv.handle (h : Inv pool s) {e : Event} (hfine : Fine s e) : Inv pool (s.handle pool e).1 := by
  obtain ⟨team, host, request⟩ := e
  cases request with
  | alloc gone a => exact h.alloc hfine
  | free id =>
    show Inv pool (s.free team host id).1
    unfold State.free
    split
    · next hc =>
      have hsent : Inv pool (s.send team id host (.destroy id.toNat)).1 := h.send hc nofun
      refine ⟨hsent.panes.shrink (length_set ..) fun i p hi hu => ?_, hsent.refused, hsent.ranges, hsent.owner⟩
      have hi := hi
      rw [getElem?_set] at hi
      split at hi
      · split at hi
        · rw [← Option.some.inj hi] at hu
          exact nomatch hu
        · exact nomatch hi
      · exact hi
    · exact h
  | configure r =>
    show Inv pool (s.configure team host r).1
    unfold State.configure
    split
    · next hc =>
      split
      · exact h
      · exact h.send hc nofun
    · exact h
  | present r =>
    show Inv pool (s.present team host r).1
    unfold State.present
    split
    · next hc =>
      dsimp only
      split
      · exact h
      split
      · exact h
      next hrange =>
      refine h.send hc fun x hx => ?_
      have hx : x ∈ (if r.spriteCount = 0 then []
          else [(((s.pane r.paneId).offset + r.spriteOffset).toNat, r.spriteCount.toNat * spriteSize.toNat)]) := hx
      split at hx
      · exact nomatch hx
      · next hcount =>
        rw [mem_singleton.1 hx]
        exact sub_range _ (by decide) (h.pane_lt hc) hrange hcount
    · exact h
  | shader r =>
    show Inv pool (s.shader team host r).1
    unfold State.shader
    split
    · next hc =>
      dsimp only
      split
      · exact h
      split
      · exact h
      next hrange =>
      refine h.send hc fun x hx => ?_
      have hx : x ∈ (if r.length = 0 then [] else [(((s.pane r.paneId).offset + r.offset).toNat, r.length.toNat)]) := hx
      split at hx
      · exact nomatch hx
      rename_i hcount
      rw [mem_singleton.1 hx]
      have := sub_range 1 (by decide) (h.pane_lt hc) (by rw [UInt64.mul_one]; exact hrange) hcount
      rw [show (1 : UInt64).toNat = 1 from rfl, Nat.mul_one] at this
      exact this
    · exact h

theorem unused_none {p : Pane} (hp : p ∈ List.replicate maxPanes ({} : Pane)) (hu : p.used = true) : False := by
  rw [eq_of_mem_replicate hp] at hu
  exact nomatch hu

theorem panes_none : Panes pool (List.replicate maxPanes {}) where
  inside _ hp hu := (unused_none hp hu).elim
  aligned _ hp hu := (unused_none hp hu).elim
  disjoint _ _ _ _ _ hp _ hu _ := (unused_none (mem_of_getElem? hp) hu).elim
  length := length_replicate

theorem inv_none : Inv pool {} where
  panes := panes_none
  refused _ h := absurd h not_mem_nil
  ranges _ h := absurd h not_mem_nil
  owner _ h := absurd h not_mem_nil

/-- **The arena is shared out in every run**, whoever asks for what, where no allocation that passes the checks wraps and its
palette block is inside. -/
theorem arena_kept {es : List Event} (hr : Runs.run (State.step pool) {} es = some s) (hf : Runs.Along (State.step pool) Fine {} es) :
    Kept pool s :=
  (Runs.run_inv (I := Inv pool) (fun s e s' h hfine hs => by
    rw [← Option.some.inj hs]
    exact h.handle hfine) inv_none hf hr).kept

end

def smallPool : Pool where
  arenaOffset := 32768
  arenaSize := 1048576
  mapped := by decide
  offset_dvd := by decide
  size_dvd := by decide

/-- A small world, two buffers of it, and its palette; so that is asked for. -/
def smallPane : Alloc where
  size := 16384
  format := indexed8
  worldWidth := 64
  worldHeight := 16
  stride := 64
  buffers := 2
  bufferOffset := 0
  bufferStride := 1024
  paletteOffset := 2048
  frontOffset := 0

/-- Two teams have panes; one is gone, its place is another's, that presents sprites and a shader. -/
def twoTeams : List Event :=
  [⟨1, true, .alloc (fun _ => false) smallPane⟩, ⟨2, true, .alloc (fun _ => false) smallPane⟩,
    ⟨2, true, .present ⟨1, 0, 4, 12000⟩⟩, ⟨1, true, .present ⟨1, 0, 4, 12000⟩⟩, ⟨3, true, .alloc (· == 0) smallPane⟩,
    ⟨3, true, .shader ⟨0, 100, 12000, 0⟩⟩, ⟨2, true, .free 1⟩]

theorem twoTeams_runs : (Runs.run (State.step smallPool) {} twoTeams).isSome = true := by decide

theorem twoTeams_kept : Kept smallPool ((Runs.run (State.step smallPool) {} twoTeams).get twoTeams_runs) :=
  arena_kept (Option.some_get twoTeams_runs).symm (by decide)

def wrapping : List Event :=
  [⟨1, true, .alloc (fun _ => false) smallPane⟩,
    ⟨2, true, .alloc (fun _ => false) { smallPane with frontOffset := 18446744073709549568 }⟩]

/-- **The second team's front plane is the end of the first one's pane.** -/
theorem front_plane_wraps : ∃ s, Runs.run (State.step smallPool) {} wrapping = some s ∧ ¬ Kept smallPool s ∧
    (s.sent.map fun x => (x.base, x.command.ranges)) = [(49152, [(49152, 2048), (51200, 6208), (47104, 2048)]),
      (32768, [(32768, 2048), (34816, 6208)])] := by
  have hrun : (Runs.run (State.step smallPool) {} wrapping).map (fun s => s.sent.map fun x => (x.base, x.command.ranges)) =
      some [(49152, [(49152, 2048), (51200, 6208), (47104, 2048)]),
      (32768, [(32768, 2048), (34816, 6208)])] := by decide
  obtain ⟨s, hr, hs⟩ := Option.map_eq_some_iff.1 hrun
  refine ⟨s, hr, fun h => ?_, hs⟩
  obtain ⟨x, hx, hxe⟩ : ∃ x ∈ s.sent, (x.base, x.command.ranges) = (49152, [(49152, 2048), (51200, 6208), (47104, 2048)]) := by
    refine mem_map.1 ?_
    rw [hs]
    exact mem_cons_self
  obtain ⟨hbase, hranges⟩ := Prod.mk.inj hxe
  have hin := (h.ranges x hx (47104, 2048) (by rw [hranges]; decide)).1
  rw [hbase] at hin
  exact absurd hin (by decide)

end Arena
end Prose
