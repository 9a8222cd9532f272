import Prose.PaintDoc
/-!
# PaintOver — how far a composite pixel strays from its layers

`Composite` divides a numerator that is rounded once by an alpha that is rounded for itself.  So a channel never falls below the
layers', and rises above them by what the alpha has lost: less than one for each layer that is laid on another.
-/
namespace Prose
namespace Paint

open List

inductive Channel
  | blue | green | red

def Pixel.channel (p : Pixel) : Channel → UInt8
  | .blue  => p.b
  | .green => p.g
  | .red   => p.r

def PPLayer.alphaAt (l : PPLayer) (x y : Nat) : Nat := (l.bits.pixel x y).a.toNat * l.opacity.toNat / 255

def PPLayer.contributes (l : PPLayer) (x y : Nat) : Bool := l.visible && l.opacity ≠ 0 && 0 < l.alphaAt x y

def contributors (ls : List PPLayer) (x y : Nat) : List PPLayer := ls.filter (fun l => l.contributes x y)

/-! ## One layer over another -/

theorem overAlpha_le {sa da : Nat} (hs : sa ≤ 255) (hd : da ≤ 255) : overAlpha sa da ≤ 255 := by
  have h : da * (255 - sa) ≤ 255 * (255 - sa) := Nat.mul_le_mul_right _ hd
  have h' : da * (255 - sa) / 255 ≤ 255 - sa := Nat.div_le_of_le_mul h
  unfold overAlpha
  omega

/-- **Alpha never falls**, whichever of the two it is. -/
theorem le_overAlpha {sa da : Nat} (hs : sa ≤ 255) (hd : da ≤ 255) : sa ≤ overAlpha sa da ∧ da ≤ overAlpha sa da := by
  refine ⟨Nat.le_add_right _ _, ?_⟩
  have hsplit : da * 255 = da * (255 - sa) + da * sa := by
    rw [← Nat.mul_add, Nat.sub_add_cancel hs]
  have hlost : da * sa ≤ 255 * sa := Nat.mul_le_mul_right sa hd
  unfold overAlpha
  omega

def overQuotient (src sa dst da : Nat) : Nat := (src * sa + dst * da * (255 - sa) / 255) / overAlpha sa da

theorem overChannel_toNat (src sa dst da : Nat) :
    (overChannel src sa dst da (overAlpha sa da)).toNat = min 255 (overQuotient src sa dst da) := by
  unfold overChannel overQuotient
  rw [UInt8.toNat_ofNat', Nat.mod_eq_of_lt (by omega)]

theorem le_overQuotient {src sa dst da m : Nat} (hpos : 0 < overAlpha sa da) (hs : m ≤ src) (hd : m ≤ dst) :
    m ≤ overQuotient src sa dst da := by
  unfold overQuotient
  rw [Nat.le_div_iff_mul_le hpos]
  have h1 : m * sa ≤ src * sa := Nat.mul_le_mul_right sa hs
  have h2 : m * (da * (255 - sa) / 255) ≤ dst * da * (255 - sa) / 255 := by
    rw [Nat.le_div_iff_mul_le (by decide), Nat.mul_assoc, Nat.mul_assoc]
    exact Nat.mul_le_mul hd (Nat.div_mul_le_self _ _)
  calc m * overAlpha sa da = m * sa + m * (da * (255 - sa) / 255) := Nat.mul_add _ _ _
    _ ≤ src * sa + dst * da * (255 - sa) / 255 := Nat.add_le_add h1 h2

/-- **A layer more, a rounding more**: `dst` over by `k` roundings of its alpha makes the quotient over by `k + 1`. -/
theorem overQuotient_le {src sa dst da M k : Nat} (hs : src ≤ M) (hd : dst * da ≤ M * (da + k)) :
    overQuotient src sa dst da * overAlpha sa da ≤ M * (overAlpha sa da + (k + 1)) := by
  have hround : da * (255 - sa) < 255 * (da * (255 - sa) / 255 + 1) := Nat.lt_mul_div_succ _ (by decide)
  have hk : k * (255 - sa) ≤ 255 * k := by
    rw [Nat.mul_comm 255 k]
    exact Nat.mul_le_mul_left k (Nat.sub_le _ _)
  have hsum : (da + k) * (255 - sa) ≤ 255 * (da * (255 - sa) / 255 + 1 + k) := by
    rw [Nat.add_mul]
    omega
  have hover : dst * da * (255 - sa) / 255 ≤ M * (da * (255 - sa) / 255 + 1 + k) := by
    refine Nat.div_le_of_le_mul ?_
    calc dst * da * (255 - sa) ≤ M * (da + k) * (255 - sa) := Nat.mul_le_mul_right _ hd
      _ = M * ((da + k) * (255 - sa)) := Nat.mul_assoc _ _ _
      _ ≤ M * (255 * (da * (255 - sa) / 255 + 1 + k)) := Nat.mul_le_mul_left M hsum
      _ = 255 * (M * (da * (255 - sa) / 255 + 1 + k)) := Nat.mul_left_comm _ _ _
  calc overQuotient src sa dst da * overAlpha sa da ≤ src * sa + dst * da * (255 - sa) / 255 := Nat.div_mul_le_self _ _
    _ ≤ M * sa + M * (da * (255 - sa) / 255 + 1 + k) := Nat.add_le_add (Nat.mul_le_mul_right sa hs) hover
    _ = M * (overAlpha sa da + (k + 1)) := by
      rw [← Nat.mul_add]
      unfold overAlpha
      congr 1
      omega

theorem overQuotient_le_solid {src sa dst M : Nat} (hsa : sa ≤ 255) (hs : src ≤ M) (hd : dst ≤ M) :
    overAlpha sa 255 = 255 ∧ overQuotient src sa dst 255 ≤ M := by
  have halpha : overAlpha sa 255 = 255 := by
    unfold overAlpha
    rw [Nat.mul_div_cancel_left _ (by decide)]
    omega
  refine ⟨halpha, ?_⟩
  unfold overQuotient
  rw [halpha, Nat.mul_right_comm, Nat.mul_div_cancel _ (by decide)]
  refine Nat.div_le_of_le_mul ?_
  calc src * sa + dst * (255 - sa) ≤ M * sa + M * (255 - sa) :=
        Nat.add_le_add (Nat.mul_le_mul_right sa hs) (Nat.mul_le_mul_right _ hd)
    _ = 255 * M := by
      rw [← Nat.mul_add, Nat.add_sub_cancel' hsa, Nat.mul_comm]

theorem overQuotient_first {src sa : Nat} (h : 0 < sa) : overAlpha sa 0 = sa ∧ overQuotient src sa 0 0 = src := by
  have halpha : overAlpha sa 0 = sa := by
    unfold overAlpha
    rw [Nat.zero_mul, Nat.zero_div, Nat.add_zero]
  refine ⟨halpha, ?_⟩
  unfold overQuotient
  rw [halpha, Nat.mul_zero, Nat.zero_mul, Nat.zero_div, Nat.add_zero, Nat.mul_div_cancel _ h]

/-! ## A stack -/

theorem alphaAt_le (l : PPLayer) (x y : Nat) : l.alphaAt x y ≤ 255 := by
  have h : (l.bits.pixel x y).a.toNat * l.opacity.toNat ≤ 255 * 255 :=
    Nat.mul_le_mul (Nat.le_of_lt_succ (UInt8.toNat_lt _)) (Nat.le_of_lt_succ (UInt8.toNat_lt _))
  exact Nat.div_le_of_le_mul h

theorem overPixel_idle {l : PPLayer} {x y : Nat} (h : l.alphaAt x y = 0) {d : Pixel} (hd : d.a = 0 → d = {}) :
    overPixel l.opacity (l.bits.pixel x y) d = d := by
  have halpha : overAlpha 0 d.a.toNat = d.a.toNat := by
    unfold overAlpha
    rw [Nat.zero_add, Nat.sub_zero, Nat.mul_div_cancel _ (by decide)]
  have hchannel (src : Nat) (c : UInt8) (ha : d.a.toNat ≠ 0) : overChannel src 0 c.toNat d.a.toNat d.a.toNat = c := by
    unfold overChannel
    rw [Nat.mul_zero, Nat.zero_add, Nat.sub_zero, Nat.mul_div_cancel _ (by decide), Nat.mul_div_cancel _ (Nat.pos_of_ne_zero ha),
      Nat.min_eq_right (Nat.le_of_lt_succ c.toNat_lt), UInt8.ofNat_toNat]
  unfold PPLayer.alphaAt at h
  unfold overPixel
  dsimp only
  rw [h, halpha]
  split_ifs with ha
  · exact (hd (UInt8.toNat_inj.1 ha)).symm
  · rw [hchannel _ _ ha, hchannel _ _ ha, hchannel _ _ ha, UInt8.ofNat_toNat]

theorem overPixel_shows {l : PPLayer} {x y : Nat} (h : 0 < l.alphaAt x y) (d : Pixel) :
    (overPixel l.opacity (l.bits.pixel x y) d).a.toNat = overAlpha (l.alphaAt x y) d.a.toNat ∧
    ∀ c, ((overPixel l.opacity (l.bits.pixel x y) d).channel c).toNat =
      min 255 (overQuotient ((l.bits.pixel x y).channel c).toNat (l.alphaAt x y) (d.channel c).toNat d.a.toNat) := by
  have hle := overAlpha_le (alphaAt_le l x y) (Nat.le_of_lt_succ d.a.toNat_lt)
  have hpos : overAlpha (l.alphaAt x y) d.a.toNat ≠ 0 := by
    have := (le_overAlpha (alphaAt_le l x y) (Nat.le_of_lt_succ d.a.toNat_lt)).1
    omega
  unfold PPLayer.alphaAt at hpos hle ⊢
  unfold overPixel
  dsimp only
  rw [if_neg hpos]
  refine ⟨?_, fun c => ?_⟩
  · rw [UInt8.toNat_ofNat', Nat.mod_eq_of_lt (by omega)]
  · cases c <;> exact overChannel_toNat _ _ _ _

/-- What the layers `cs`, composited, come to. -/
structure Within (cs : List PPLayer) (x y : Nat) (p : Pixel) : Prop where
  clear : cs = [] → p = {}
  shown : cs ≠ [] → 0 < p.a.toNat
  alpha : ∀ l ∈ cs, l.alphaAt x y ≤ p.a.toNat
  low : ∀ c m, cs ≠ [] → (∀ l ∈ cs, m ≤ ((l.bits.pixel x y).channel c).toNat) → m ≤ (p.channel c).toNat
  high : ∀ c M, (∀ l ∈ cs, ((l.bits.pixel x y).channel c).toNat ≤ M) →
    (p.channel c).toNat * p.a.toNat ≤ M * (p.a.toNat + (cs.length - 1))
  solid : ∀ l ∈ cs.head?, l.alphaAt x y = 255 → p.a.toNat = 255 ∧
    ∀ c M, (∀ l ∈ cs, ((l.bits.pixel x y).channel c).toNat ≤ M) → (p.channel c).toNat ≤ M

theorem Within.nil (x y : Nat) : Within [] x y {} where
  clear _ := rfl
  shown h := absurd rfl h
  alpha _ hl := (nomatch hl)
  low _ _ h := absurd rfl h
  high c M _ := by cases c <;> exact Nat.zero_le _
  solid _ hl := (nomatch hl)

theorem Within.first {l : PPLayer} {x y : Nat} (hl : 0 < l.alphaAt x y) : Within [l] x y (overPixel l.opacity (l.bits.pixel x y) {}) := by
  obtain ⟨ha, hc⟩ := overPixel_shows hl {}
  have ha' : (overPixel l.opacity (l.bits.pixel x y) {}).a.toNat = l.alphaAt x y :=
    ha.trans (@overQuotient_first 0 _ hl).1
  have hc' : ∀ c, ((overPixel l.opacity (l.bits.pixel x y) {}).channel c).toNat = ((l.bits.pixel x y).channel c).toNat := fun c => by
    have hzero : (Pixel.channel {} c).toNat = 0 := by cases c <;> rfl
    rw [hc, hzero]
    show min 255 (overQuotient _ _ 0 0) = _
    rw [(overQuotient_first hl).2]
    exact Nat.min_eq_right (Nat.le_of_lt_succ (UInt8.toNat_lt _))
  refine ⟨fun h => (nomatch h), fun _ => ha' ▸ hl, fun k hk => ?_, fun c m _ hm => ?_, fun c M hM => ?_, fun k hk hfull => ⟨?_, fun c M hM => ?_⟩⟩
  · rw [mem_singleton.1 hk, ha']
  · rw [hc' c]
    exact hm l mem_cons_self
  · rw [hc' c]
    exact Nat.mul_le_mul_right _ (hM l mem_cons_self)
  · cases hk
    exact ha'.trans hfull
  · rw [hc' c]
    exact hM l mem_cons_self

/-- **One layer more.** -/
theorem Within.over {cs : List PPLayer} {x y : Nat} {p : Pixel} (h : Within cs x y p) (hne : cs ≠ []) {l : PPLayer}
    (hl : 0 < l.alphaAt x y) : Within (cs ++ [l]) x y (overPixel l.opacity (l.bits.pixel x y) p) := by
  obtain ⟨ha, hc⟩ := overPixel_shows hl p
  have hla := alphaAt_le l x y
  have hle := le_overAlpha hla (Nat.le_of_lt_succ p.a.toNat_lt)
  have hmem : l ∈ cs ++ [l] := mem_append_right _ mem_cons_self
  refine ⟨fun hnil => absurd hnil (append_ne_nil_of_left_ne_nil hne _), fun _ => ?_, fun k hk => ?_, fun c m _ hm => ?_,
    fun c M hM => ?_, fun k hk hfull => ?_⟩
  · rw [ha]
    exact Nat.lt_of_lt_of_le hl hle.1
  · rw [ha]
    rcases mem_append.1 hk with hk | hk
    · exact Nat.le_trans (h.alpha k hk) hle.2
    · rw [mem_singleton.1 hk]
      exact hle.1
  · rw [hc c]
    have hp := h.low c m hne (fun k hk => hm k (mem_append_left _ hk))
    have hq := le_overQuotient (Nat.lt_of_lt_of_le hl hle.1) (hm l hmem) hp
    exact Nat.le_min.2 ⟨Nat.le_trans hp (Nat.le_of_lt_succ (UInt8.toNat_lt _)), hq⟩
  · rw [hc c, ha]
    have hp := h.high c M (fun k hk => hM k (mem_append_left _ hk))
    have hlength : (cs ++ [l]).length - 1 = cs.length - 1 + 1 := by
      have := length_pos_iff.2 hne
      rw [length_append, length_singleton]
      omega
    rw [hlength]
    exact Nat.le_trans (Nat.mul_le_mul_right _ (Nat.min_le_right _ _)) (overQuotient_le (hM l hmem) hp)
  · rw [head?_append_of_ne_nil _ hne] at hk
    obtain ⟨hsolid, hp⟩ := h.solid k hk hfull
    rw [ha, hsolid]
    refine ⟨(@overQuotient_le_solid 0 _ 0 0 hla (Nat.le_refl 0) (Nat.le_refl 0)).1, fun c M hM => ?_⟩
    rw [hc c, hsolid]
    have hq := overQuotient_le_solid hla (hM l hmem) (hp c M (fun k hk => hM k (mem_append_left _ hk)))
    exact Nat.le_trans (Nat.min_le_right _ _) hq.2

theorem contributes_iff {l : PPLayer} {x y : Nat} :
    l.contributes x y = true ↔ ¬ (¬ l.visible ∨ l.opacity = 0) ∧ 0 < l.alphaAt x y := by
  unfold PPLayer.contributes
  simp [and_assoc]

theorem Within.layer {cs : List PPLayer} {x y : Nat} {p : Pixel} (h : Within cs x y p) (l : PPLayer) :
    Within (cs ++ contributors [l] x y) x y (if ¬ l.visible ∨ l.opacity = 0 then p else overPixel l.opacity (l.bits.pixel x y) p) := by
  unfold contributors
  by_cases hshows : l.contributes x y = true
  · obtain ⟨hvisible, hl⟩ := contributes_iff.1 hshows
    rw [filter_cons_of_pos (p := fun l : PPLayer => l.contributes x y) hshows, filter_nil, if_neg hvisible]
    by_cases hcs : cs = []
    · rw [hcs, h.clear hcs]
      exact .first hl
    · exact h.over hcs hl
  · rw [filter_cons_of_neg (p := fun l : PPLayer => l.contributes x y) hshows, filter_nil, append_nil]
    split_ifs with hvisible
    · exact h
    · have hzero : l.alphaAt x y = 0 := Nat.eq_zero_of_not_pos (fun hl => hshows (contributes_iff.2 ⟨hvisible, hl⟩))
      have hclear : p.a = 0 → p = {} := fun ha => h.clear (by
        by_contra hne
        have hshown := h.shown hne
        rw [ha] at hshown
        exact absurd hshown (Nat.lt_irrefl 0))
      rw [overPixel_idle hzero hclear]
      exact h

theorem Within.stack (x y : Nat) : ∀ (ls : List PPLayer) {cs : List PPLayer} {p : Pixel}, Within cs x y p →
    Within (cs ++ contributors ls x y) x y
      (ls.foldl (fun p l => if ¬ l.visible ∨ l.opacity = 0 then p else overPixel l.opacity (l.bits.pixel x y) p) p)
  | [], cs, _, h => by
    rw [contributors, filter_nil, append_nil]
    exact h
  | l :: ls, cs, p, h => by
    have hcons : cs ++ contributors (l :: ls) x y = cs ++ contributors [l] x y ++ contributors ls x y := by
      rw [append_assoc]
      unfold contributors
      rw [← filter_append, singleton_append]
    rw [hcons, foldl_cons]
    exact Within.stack x y ls (h.layer l)

theorem compositePixel_spec (ls : List PPLayer) (x y : Nat) : Within (contributors ls x y) x y (compositePixel ls x y) :=
  Within.stack x y ls (Within.nil x y)

/-- **A composite pixel stays within its layers**, but for a rounding of its alpha for each layer that is laid on another: of the
maximum, that part is added.  Over a layer of full alpha there is none.  Its alpha is at least every layer's. -/
theorem compositePixel_within (ls : List PPLayer) (x y : Nat) :
    let p := compositePixel ls x y
    let cs := contributors ls x y
    (∀ l ∈ cs, l.alphaAt x y ≤ p.a.toNat) ∧
    (p.a ≠ 0 → ∀ c : Channel, (∃ l ∈ cs, (l.bits.pixel x y).channel c ≤ p.channel c) ∧
      (∃ l ∈ cs, (p.channel c).toNat * p.a.toNat ≤ ((l.bits.pixel x y).channel c).toNat * (p.a.toNat + (cs.length - 1))) ∧
      ((∀ l ∈ cs.head?, l.alphaAt x y = 255) → ∃ l ∈ cs, p.channel c ≤ (l.bits.pixel x y).channel c)) := by
  have h := compositePixel_spec ls x y
  refine ⟨h.alpha, fun hp c => ?_⟩
  have hne : contributors ls x y ≠ [] := fun hnil => hp (by rw [h.clear hnil])
  have hpos := h.shown hne
  refine ⟨?_, ?_, fun hsolid => ?_⟩
  · by_contra hno
    have hlow := h.low c (((compositePixel ls x y).channel c).toNat + 1) hne (fun l hl => ?_)
    · omega
    · exact Nat.lt_of_not_le (fun hle => hno ⟨l, hl, UInt8.le_iff_toNat_le.2 hle⟩)
  · by_contra hno
    generalize hk : (contributors ls x y).length - 1 = k at hno
    -- what no layer reaches bounds them all
    have hhigh := h.high c (((((compositePixel ls x y).channel c).toNat * (compositePixel ls x y).a.toNat) - 1) /
      ((compositePixel ls x y).a.toNat + k)) (fun l hl => ?_)
    · have hmul := Nat.div_mul_le_self ((((compositePixel ls x y).channel c).toNat * (compositePixel ls x y).a.toNat) - 1)
        ((compositePixel ls x y).a.toNat + k)
      rw [hk] at hhigh
      obtain ⟨l, hl⟩ := exists_mem_of_ne_nil _ hne
      have hlt : _ < _ := Nat.lt_of_not_le (fun hle => hno ⟨l, hl, hle⟩)
      omega
    · rw [Nat.le_div_iff_mul_le (by omega)]
      have hlt : _ < _ := Nat.lt_of_not_le (fun hle => hno ⟨l, hl, hle⟩)
      omega
  · obtain ⟨l, hl⟩ : ∃ l, (contributors ls x y).head? = some l := by
      rw [← Option.isSome_iff_exists, isSome_head?]
      simpa using hne
    obtain ⟨-, hmax⟩ := h.solid l hl (hsolid l hl)
    by_contra hno
    have hall : ∀ k ∈ contributors ls x y, ((k.bits.pixel x y).channel c).toNat < ((compositePixel ls x y).channel c).toNat :=
      fun k hk => Nat.lt_of_not_le (fun hle => hno ⟨k, hk, UInt8.le_iff_toNat_le.2 hle⟩)
    have hle := hmax c (((compositePixel ls x y).channel c).toNat - 1) (fun k hk => Nat.le_sub_one_of_lt (hall k hk))
    have := hall l (mem_of_mem_head? hl)
    omega

def flat (p : Pixel) : PPLayer := { id := 1, bits := ⟨1, 1, fun _ _ => p⟩ }

/-- A grey of alpha 1 over itself is white. -/
theorem compositePixel_grey : ¬ ∀ (ls : List PPLayer) (x y : Nat) (c : Channel), (compositePixel ls x y).a ≠ 0 →
    ∃ l ∈ contributors ls x y, (compositePixel ls x y).channel c ≤ (l.bits.pixel x y).channel c := by
  intro h
  have hgrey := h [flat ⟨200, 200, 200, 1⟩, flat ⟨200, 200, 200, 1⟩] 0 0 .blue (by decide)
  revert hgrey
  decide

end Paint
end Prose
