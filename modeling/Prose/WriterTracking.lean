import Mathlib.Data.List.Nodup
import Prose.WriterInvariants
/-!
# WriterTracking — ids and revisions

A paragraph is followed by its id: every operation on a paragraph keeps the id and, where it changes anything, raises the
revision (`Later`); the one operation that makes a paragraph takes the next unused id.  So ids are distinct and never
come back, and a paragraph that still has its id and revision is unchanged (`tracking_sound`).
-/
namespace Prose
namespace Writer

open List

open Relation (ReflTransGen)

/-- The same paragraph later on: unchanged, or with a higher revision. -/
def Later (p p' : Para) : Prop := p'.id = p.id ∧ (p' = p ∨ p.revision < p'.revision)

theorem Later.refl (p : Para) : Later p p := ⟨rfl, Or.inl rfl⟩

theorem Later.trans {p q r : Para} (h : Later p q) (h' : Later q r) : Later p r := by
  refine ⟨h'.1.trans h.1, ?_⟩
  rcases h'.2 with rfl | hr
  · exact h.2
  · rcases h.2 with rfl | hq
    · exact Or.inr hr
    · exact Or.inr (Nat.lt_trans hq hr)

theorem later_eraseText (dflt : PWCharFormat) (p : Para) (k take : Nat) : Later p (p.eraseText dflt k take) :=
  ⟨rfl, Or.inr (Nat.lt_succ_self _)⟩

theorem later_eraseRest (dflt : PWCharFormat) (p : Para) (k : Nat) : Later p (p.eraseRest dflt k) := by
  unfold Para.eraseRest
  split
  · exact later_eraseText dflt p k _
  · exact Later.refl p

theorem later_mergeNext (p q : Para) : Later p (p.mergeNext q) := ⟨rfl, Or.inr (Nat.lt_succ_self _)⟩

theorem removeLoop_later (dflt : PWCharFormat) (base : Nat) {k : Nat} (rest : List Para) {p : Para} (left : Nat)
    (saved : ImageTable) (hk : k ≤ p.text.length) :
    Later p (removeLoop dflt base k rest p left saved).1.1 ∧ (removeLoop dflt base k rest p left saved).1.2 <:+ rest := by
  induction rest, p, left, saved, hk using removeLoop_induct dflt base with
  | done rest p saved hk =>
    rw [removeLoop_done]
    exact ⟨Later.refl p, suffix_refl _⟩
  | within rest p left saved hk h0 hin =>
    rw [removeLoop_within dflt base h0 hin]
    exact ⟨later_eraseText dflt p k left, suffix_refl _⟩
  | crosses next rest p left saved hk hk' hc ih =>
    rw [removeLoop_crosses dflt base hk hc]
    exact ⟨((later_eraseRest dflt p k).trans (later_mergeNext _ next)).trans ih.1, ih.2.trans (suffix_cons next rest)⟩
  | past p left saved hk hc =>
    rw [removeLoop_past dflt base hk hc]
    exact ⟨later_eraseRest dflt p k, suffix_refl _⟩

/-! ## Contents -/

def Fresh (c : List Para × Nat) : Prop := (c.1.map Para.id).Nodup ∧ ∀ p ∈ c.1, p.id < c.2

/-- Every paragraph is an earlier one later on, or took an id that was unused. -/
def Tracks (c c' : List Para × Nat) : Prop :=
  c.2 ≤ c'.2 ∧ ∀ p' ∈ c'.1, (∃ p ∈ c.1, Later p p') ∨ (c.2 ≤ p'.id ∧ p'.id < c'.2)

theorem Tracks.refl (c : List Para × Nat) : Tracks c c := ⟨Nat.le_refl _, fun p hp => Or.inl ⟨p, hp, Later.refl p⟩⟩

theorem Tracks.trans {a b c : List Para × Nat} (h : Tracks a b) (h' : Tracks b c) : Tracks a c := by
  refine ⟨Nat.le_trans h.1 h'.1, fun p'' hp'' => ?_⟩
  rcases h'.2 p'' hp'' with ⟨p', hp', hl'⟩ | ⟨h1, h2⟩
  · rcases h.2 p' hp' with ⟨p, hp, hl⟩ | ⟨h1, h2⟩
    · exact Or.inl ⟨p, hp, hl.trans hl'⟩
    · exact Or.inr ⟨by rw [hl'.1]; exact h1, by rw [hl'.1]; exact Nat.lt_of_lt_of_le h2 h'.1⟩
  · exact Or.inr ⟨Nat.le_trans h.1 h1, h2⟩

theorem tracks_of_forall₂ {ps ps' : List Para} (n : Nat) (h : List.Forall₂ Later ps ps') :
    ps'.map Para.id = ps.map Para.id ∧ Tracks (ps, n) (ps', n) := by
  constructor
  · induction h with
    | nil => rfl
    | cons hp _ ih => rw [map_cons, map_cons, ih, hp.1]
  · refine ⟨Nat.le_refl n, fun p' hp' => Or.inl ?_⟩
    dsimp only at hp' ⊢
    induction h with
    | nil => cases hp'
    | @cons p q ps qs hpq _ ih =>
      rcases mem_cons.1 hp' with rfl | hp'
      · exact ⟨p, mem_cons_self, hpq⟩
      · obtain ⟨x, hx, hl⟩ := ih hp'
        exact ⟨x, mem_cons_of_mem p hx, hl⟩

theorem formatLoop_later (dflt fmt : PWCharFormat) (fuel : Nat) (ps : List Para) (at' stop : Nat) :
    List.Forall₂ Later ps (formatLoop dflt fmt fuel ps at' stop) :=
  forall₂_formatLoop Later.refl (fun _ _ _ => Later.trans) dflt fmt
    (fun _ _ _ _ => ⟨rfl, Or.inr (Nat.lt_succ_self _)⟩) fuel ps at' stop

theorem fresh_of_map_id {ps ps' : List Para} {n : Nat} (h : ps'.map Para.id = ps.map Para.id) (hf : Fresh (ps, n)) :
    Fresh (ps', n) := by
  refine ⟨by rw [h]; exact hf.1, fun p hp => ?_⟩
  have hm : p.id ∈ ps.map Para.id := by
    rw [← h]
    exact mem_map_of_mem hp
  obtain ⟨q, hq, he⟩ := mem_map.1 hm
  rw [← he]
  exact hf.2 q hq

/-- **Every change keeps the ids distinct and tracked.** -/
theorem ParasStep.tracks {c c' : List Para × Nat} (h : ParasStep c c') (hf : Fresh c) : Fresh c' ∧ Tracks c c' := by
  have later : ∀ {ps ps' : List Para} {n : Nat}, List.Forall₂ Later ps ps' → Fresh (ps, n) →
      Fresh (ps', n) ∧ Tracks (ps, n) (ps', n) := fun {ps ps' n} hl hf => by
    obtain ⟨h1, h2⟩ := tracks_of_forall₂ n hl
    exact ⟨fresh_of_map_id h1 hf, h2⟩
  cases h with
  | insert dflt ps n offset fmt ht hn =>
    refine later (forall₂_modify Later.refl (fun p => ?_) ps _) hf
    exact ⟨rfl, Or.inr (Nat.lt_succ_self _)⟩
  | split dflt ps n offset =>
    unfold splitParas
    split
    · exact ⟨⟨hf.1, fun p hp => Nat.lt_succ_of_lt (hf.2 p hp)⟩, Nat.le_succ n, fun p hp => Or.inl ⟨p, hp, Later.refl p⟩⟩
    rename_i q post hq
    have hps : ps = ps.take (locate ps offset).1 ++ q :: post := by rw [← hq, take_append_drop]
    generalize ps.take (locate ps offset).1 = pre at hps
    subst hps
    obtain ⟨hnd, hlt⟩ := hf
    dsimp only at hnd hlt
    constructor
    · constructor
      · -- the new id is above all the others
        have hn : n ∉ (pre ++ q :: post).map Para.id := fun hn => by
          obtain ⟨x, hx, he⟩ := mem_map.1 hn
          exact absurd he (Nat.ne_of_lt (hlt x hx))
        rw [map_append, map_cons] at hnd hn ⊢
        rw [map_cons]
        have : (pre.map Para.id ++ (q.id :: n :: post.map Para.id)).Perm (n :: (pre.map Para.id ++ q.id :: post.map Para.id)) :=
          (List.Perm.append_left _ (List.Perm.swap n q.id _)).trans perm_middle
        exact this.nodup_iff.2 (nodup_cons.2 ⟨hn, hnd⟩)
      · intro p hp
        rcases mem_append.1 hp with hp | hp
        · exact Nat.lt_succ_of_lt (hlt p (mem_append_left _ hp))
        rcases mem_cons.1 hp with rfl | hp
        · exact Nat.lt_succ_of_lt (hlt q (mem_append_right _ mem_cons_self))
        · rcases mem_cons.1 hp with rfl | hp
          · exact Nat.lt_succ_self n
          · exact Nat.lt_succ_of_lt (hlt p (mem_append_right _ (mem_cons_of_mem q hp)))
    · refine ⟨Nat.le_succ n, fun p hp => ?_⟩
      dsimp only at hp ⊢
      rcases mem_append.1 hp with hp | hp
      · exact Or.inl ⟨p, mem_append_left _ hp, Later.refl p⟩
      rcases mem_cons.1 hp with rfl | hp
      · exact Or.inl ⟨q, mem_append_right _ mem_cons_self, rfl, Or.inr (Nat.lt_succ_self _)⟩
      · rcases mem_cons.1 hp with rfl | hp
        · exact Or.inr ⟨Nat.le_refl n, Nat.lt_succ_self n⟩
        · exact Or.inl ⟨p, mem_append_right _ (mem_cons_of_mem q hp), Later.refl p⟩
  | @remove dflt ps n offset length h0 hr =>
    unfold removeParas
    split
    · exact ⟨hf, Tracks.refl _⟩
    rename_i q rest hq
    have hps : ps = ps.take (locate ps offset).1 ++ q :: rest := by rw [← hq, take_append_drop]
    have hqi : ps[(locate ps offset).1]? = some q := by
      have := congrArg (·[0]?) hq
      simpa using this
    obtain ⟨h1, h2⟩ := removeLoop_later dflt (paraStart ps (locate ps offset).1) rest length SortedMap.empty
      (locate_le_of_getElem? hqi)
    generalize removeLoop dflt (paraStart ps (locate ps offset).1) (locate ps offset).2 rest q length SortedMap.empty = r
      at h1 h2
    generalize ps.take (locate ps offset).1 = pre at hps
    subst hps
    obtain ⟨gone, hgone⟩ := h2
    have hsub : ((pre ++ r.1.1 :: r.1.2).map Para.id).Sublist ((pre ++ q :: rest).map Para.id) := by
      rw [map_append, map_append, map_cons, map_cons, h1.1, ← hgone, map_append]
      exact List.Sublist.append_left (List.Sublist.cons_cons _ (sublist_append_right _ _)) _
    have hmem : ∀ p ∈ pre ++ r.1.1 :: r.1.2, ∃ x ∈ pre ++ q :: rest, Later x p := fun p hp => by
      rcases mem_append.1 hp with hp | hp
      · exact ⟨p, mem_append_left _ hp, Later.refl p⟩
      rcases mem_cons.1 hp with rfl | hp
      · exact ⟨q, mem_append_right _ mem_cons_self, h1⟩
      · refine ⟨p, mem_append_right _ (mem_cons_of_mem q ?_), Later.refl p⟩
        rw [← hgone]
        exact mem_append_right _ hp
    refine ⟨⟨hf.1.sublist hsub, fun p hp => ?_⟩, Nat.le_refl n, fun p hp => Or.inl (hmem p hp)⟩
    obtain ⟨x, hx, hl⟩ := hmem p hp
    rw [hl.1]
    exact hf.2 x hx
  | format dflt fmt ps n offset length => exact later (formatLoop_later dflt fmt length ps offset (offset + length)) hf
  | setFormat ps n para fmt =>
    refine later (forall₂_modify Later.refl (fun p => ?_) ps _) hf
    exact ⟨rfl, Or.inr (Nat.lt_succ_self _)⟩
  | setImage ps n i img hk =>
    refine later (forall₂_modify Later.refl (fun p => ?_) ps _) hf
    exact ⟨rfl, Or.inr (Nat.lt_succ_self _)⟩

theorem Evolves.tracks {c c' : List Para × Nat} (h : Evolves c c') (hf : Fresh c) : Fresh c' ∧ Tracks c c' := by
  induction h with
  | refl => exact ⟨hf, Tracks.refl c⟩
  | tail _ hs ih =>
    obtain ⟨h1, h2⟩ := hs.tracks ih.1
    exact ⟨h1, ih.2.trans h2⟩

theorem Reachable.fresh {plain : FontFamily} {d : PWDocument} (h : Reachable plain d) : Fresh d.content := by
  refine (Evolves.tracks (Calls.evolves h) ⟨nodup_singleton _, fun p hp => ?_⟩).1
  cases mem_singleton.1 hp
  exact Nat.lt_succ_self 1

theorem Tracks.same {c c' : List Para × Nat} (h : Tracks c c') (hf : Fresh c) {p p' : Para} (hp : p ∈ c.1) (hp' : p' ∈ c'.1)
    (hid : p'.id = p.id) (hrev : p'.revision = p.revision) : p' = p := by
  rcases h.2 p' hp' with ⟨q, hq, hl⟩ | ⟨h1, -⟩
  · have : q = p := inj_on_of_nodup_map hf.1 hq hp (hl.1.symm.trans hid)
    subst this
    rcases hl.2 with h | h
    · exact h
    · omega
  · have := hf.2 p hp
    omega

theorem Tracks.gone {c c₁ c₂ : List Para × Nat} (h : Tracks c c₁) (h' : Tracks c₁ c₂) (hf : Fresh c) {id : Nat}
    (hid : id ∈ c.1.map Para.id) (hgone : id ∉ c₁.1.map Para.id) : id ∉ c₂.1.map Para.id := by
  intro hback
  obtain ⟨p, hp, rfl⟩ := mem_map.1 hid
  obtain ⟨p₂, hp₂, he⟩ := mem_map.1 hback
  rcases h'.2 p₂ hp₂ with ⟨q, hq, hl⟩ | ⟨h1, -⟩
  · exact hgone (mem_map.2 ⟨q, hq, hl.1.symm.trans he⟩)
  · have h2 := hf.2 p hp
    have h3 := h.1
    omega

/-- **Change tracking is sound**: ids are distinct, an id that left never comes back, and a paragraph that has its id and
revision from before has its text, runs, format and images from before. -/
theorem tracking_sound {plain : FontFamily} {d : PWDocument} (h : Reachable plain d) :
    (d.fParas.map Para.id).Nodup ∧ ∀ d₁, Calls d d₁ →
      (∀ p ∈ d.fParas, ∀ p₁ ∈ d₁.fParas, p₁.id = p.id → p₁.revision = p.revision →
        p₁.text = p.text ∧ p₁.runs = p.runs ∧ p₁.format = p.format ∧ p₁.images = p.images) ∧
      ∀ d₂, Calls d₁ d₂ → ∀ id ∈ d.fParas.map Para.id, id ∉ d₁.fParas.map Para.id → id ∉ d₂.fParas.map Para.id := by
  have hf := h.fresh
  refine ⟨hf.1, fun d₁ h₁ => ?_⟩
  obtain ⟨hf₁, ht₁⟩ := Evolves.tracks (Calls.evolves h₁) hf
  refine ⟨fun p hp p₁ hp₁ hid hrev => ?_, fun d₂ h₂ id hid hgone => ?_⟩
  · have := ht₁.same hf hp hp₁ hid hrev
    subst this
    exact ⟨rfl, rfl, rfl, rfl⟩
  · exact ht₁.gone (Evolves.tracks (Calls.evolves h₂) hf₁).2 hf hid hgone

theorem tracking_sound_mergedBold : ∃ d d₁, callAll (PWDocument.new noFamily) mergedBold = some d ∧ d.undo = some d₁ ∧
    ∀ p ∈ d.fParas, ∀ p₁ ∈ d₁.fParas, p₁.id = p.id → p₁.revision = p.revision →
      p₁.text = p.text ∧ p₁.runs = p.runs ∧ p₁.format = p.format ∧ p₁.images = p.images := by
  have h : Reachable noFamily _ := Calls.of_callAll mergedBold rfl
  exact ⟨_, _, rfl, rfl, ((tracking_sound h).2 _ (Calls.of_callAll [.undo] rfl)).1⟩

end Writer
end Prose
