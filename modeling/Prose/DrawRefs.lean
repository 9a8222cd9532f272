import Prose.DrawDoc
import Prose.Refs
/-!
# DrawRefs — ids and connectors

The shapes of a document, and those on its undo stacks, have distinct ids below the next one, and every connector joins
two shapes that are there, as long as no connector is duplicated while `push_back` moves the shapes.
-/
namespace Prose
namespace Draw

open Refs List

def PDShape.ends (s : PDShape) : List Int := if s.kind = .connector then [s.fromId, s.toId] else []

def PDShape.Box (s : PDShape) : Prop := s.kind ≠ .connector

def PDShape.joint (s : PDShape) : Int × PDShapeKind × Int × Int := (s.id, s.kind, s.fromId, s.toId)

structure Intact (shapes : List PDShape) (nextId : Int) : Prop where
  closed : Closed PDShape.id PDShape.ends PDShape.Box shapes
  below : ∀ s ∈ shapes, s.id < nextId

/-- `id` names a shape that is no connector. -/
def Joins (shapes : List PDShape) (id : Int) : Prop := Finds PDShape.id PDShape.Box shapes id

theorem joint_eq {s t : PDShape} (h : s.joint = t.joint) :
    s.id = t.id ∧ s.ends = t.ends ∧ (s.Box → t.Box) := by
  unfold PDShape.joint at h
  rw [Prod.mk.injEq, Prod.mk.injEq, Prod.mk.injEq] at h
  unfold PDShape.ends PDShape.Box
  rw [h.1, h.2.1, h.2.2.1, h.2.2.2]
  exact ⟨rfl, rfl, id⟩

theorem Intact.congr {shapes shapes' : List PDShape} {nextId : Int} (h : Intact shapes nextId)
    (he : shapes'.map PDShape.joint = shapes.map PDShape.joint) : Intact shapes' nextId := by
  refine ⟨h.closed.congr (fun _ _ => joint_eq) he.symm, fun s hs => ?_⟩
  obtain ⟨t, ht, hts⟩ := mem_map.1 (he ▸ mem_map_of_mem hs)
  rw [← (joint_eq hts).1]
  exact h.below t ht

theorem Intact.perm {shapes shapes' : List PDShape} {nextId : Int} (h : Intact shapes nextId)
    (hp : shapes.Perm shapes') : Intact shapes' nextId :=
  ⟨h.closed.perm hp, fun s hs => h.below s (hp.mem_iff.2 hs)⟩

theorem Intact.append {shapes : List PDShape} {nextId : Int} (h : Intact shapes nextId) {s : PDShape}
    (hid : s.id = nextId) (hends : ∀ k ∈ s.ends, Joins shapes k) : Intact (shapes ++ [s]) (nextId + 1) := by
  refine ⟨h.closed.append (fun t ht => ?_) hends, fun t ht => ?_⟩
  · have := h.below t ht
    omega
  · rcases mem_append.1 ht with ht | ht
    · have := h.below t ht
      omega
    · rw [mem_singleton.1 ht]
      omega

/-! ## Writes through a pointer -/

theorem modifyShape_joint (id : Int) (f : PDShape → PDShape) (hf : ∀ s, (f s).joint = s.joint) : ∀ shapes : List PDShape,
    (modifyShape id f shapes).map PDShape.joint = shapes.map PDShape.joint
  | [] => rfl
  | s :: ss => by
    unfold modifyShape
    split
    · rw [map_cons, map_cons, hf]
    · rw [map_cons, map_cons, modifyShape_joint id f hf ss]

theorem modifyBack_append (f : PDShape → PDShape) (s : PDShape) : ∀ shapes : List PDShape,
    modifyBack f (shapes ++ [s]) = shapes ++ [f s]
  | [] => rfl
  | [_] => rfl
  | x :: y :: ss => congrArg (x :: ·) (modifyBack_append f s (y :: ss))

theorem offsetShape_joint (id : Int) (shift : BRect → Float32 × Float32) (shapes : List PDShape) :
    (offsetShape id shift shapes).map PDShape.joint = shapes.map PDShape.joint := by
  unfold offsetShape
  refine modifyShape_joint id _ (fun s => ?_) shapes
  rfl

theorem distribute_joint (start size : BRect → Float32) (shift : Float32 → Float32 × Float32) (gap : Float32) :
    ∀ (ids : List Int) (x : Float32) (shapes : List PDShape),
      (distribute start size shift gap x ids shapes).map PDShape.joint = shapes.map PDShape.joint
  | [], _, _ => rfl
  | id :: ids, x, shapes => by
    unfold distribute
    dsimp only
    rw [distribute_joint start size shift gap ids, offsetShape_joint]

theorem alignShapes_joint (mode : PDAlign) (first : PDShape) (rest shapes : List PDShape) :
    (alignShapes mode first rest shapes).map PDShape.joint = shapes.map PDShape.joint := by
  have heach : ∀ (shift : BRect → Float32 × Float32) (sel shapes : List PDShape),
      (sel.foldl (fun shapes s => offsetShape s.id shift shapes) shapes).map PDShape.joint = shapes.map PDShape.joint := by
    intro shift sel
    induction sel with
    | nil => exact fun _ => rfl
    | cons s sel ih =>
      intro shapes
      rw [foldl_cons, ih, offsetShape_joint]
  unfold alignShapes
  cases mode with
  | distributeH => exact distribute_joint _ _ _ _ _ _ _
  | distributeV => exact distribute_joint _ _ _ _ _ _ _
  | left => exact heach _ _ _
  | hcenter => exact heach _ _ _
  | right => exact heach _ _ _
  | top => exact heach _ _ _
  | vcenter => exact heach _ _ _
  | bottom => exact heach _ _ _

/-! ## Removal -/

theorem subset_cascade : ∀ (shapes : List PDShape) {gone : List Int} {id : Int}, id ∈ gone → id ∈ cascade gone shapes
  | [], _, _, h => h
  | s :: ss, gone, id, h => by
    unfold cascade
    refine subset_cascade ss ?_
    split
    · exact mem_append_left _ h
    · exact h

theorem mem_cascade : ∀ (shapes : List PDShape) {gone : List Int} {id : Int}, id ∈ cascade gone shapes →
    id ∈ gone ∨ ∃ c ∈ shapes, c.id = id ∧ c.kind = .connector
  | [], _, _, h => Or.inl h
  | s :: ss, gone, id, h => by
    unfold cascade at h
    rcases mem_cascade ss h with h | ⟨c, hc, hid, hk⟩
    · split at h
      · rename_i hs
        rcases mem_append.1 h with h | h
        · exact Or.inl h
        · exact Or.inr ⟨s, mem_cons_self, (mem_singleton.1 h).symm, hs.1⟩
      · exact Or.inl h
    · exact Or.inr ⟨c, mem_cons_of_mem s hc, hid, hk⟩

theorem connector_mem_cascade : ∀ (shapes : List PDShape) {gone : List Int} {c : PDShape}, c ∈ shapes →
    c.kind = .connector → c.fromId ∈ gone ∨ c.toId ∈ gone → c.id ∈ cascade gone shapes
  | [], _, _, hc, _, _ => nomatch hc
  | s :: ss, gone, c, hc, hk, he => by
    unfold cascade
    rcases mem_cons.1 hc with rfl | hc
    · rw [if_pos ⟨hk, he⟩]
      exact subset_cascade ss (mem_append_right _ (mem_singleton.2 rfl))
    refine connector_mem_cascade ss hc hk ?_
    split
    · exact he.imp (mem_append_left _) (mem_append_left _)
    · exact he

/-- **Removal leaves no connector dangling.** -/
theorem Intact.remove {shapes : List PDShape} {nextId : Int} (h : Intact shapes nextId) (ids : List Int) :
    Intact (shapes.filter (fun s => decide (s.id ∉ cascade ids shapes))) nextId := by
  refine ⟨h.closed.filter (fun a ha hga t ht hat hbox => ?_), fun s hs => h.below s (mem_filter.1 hs).1⟩
  rw [decide_eq_true_eq] at hga ⊢
  intro hgone
  rcases mem_cascade shapes hgone with hid | ⟨c, hc, hid, hk⟩
  · unfold PDShape.ends at hat
    split at hat
    · rename_i hk
      refine hga (connector_mem_cascade shapes ha hk ?_)
      rcases mem_cons.1 hat with he | he
      · exact Or.inl (he ▸ hid)
      · exact Or.inr (mem_singleton.1 he ▸ hid)
    · cases hat
  · exact hbox ((h.closed.unique hc ht hid) ▸ hk)

/-! ## The document -/

structure Kept (d : PDDocument) : Prop where
  now : Intact d.fShapes d.fNextId
  undo : ∀ p ∈ d.fUndo, Intact p.1 p.2
  redo : ∀ p ∈ d.fRedo, Intact p.1 p.2

theorem kept_new : Kept {} :=
  ⟨⟨closed_nil, fun _ h => nomatch h⟩, fun _ h => (nomatch h), fun _ h => (nomatch h)⟩

theorem joins_of_mem {shapes : List PDShape} {s : PDShape} (h : s ∈ shapes) (hk : s.kind ≠ .connector) :
    Joins shapes s.id := ⟨s, h, rfl, hk⟩

theorem shapeAtPoint_joins {d : PDDocument} {p : BPoint} (hp : d.shapeAtPoint p ≠ 0) : Joins d.fShapes (d.shapeAtPoint p) := by
  unfold PDDocument.shapeAtPoint at hp ⊢
  split at hp
  · exact absurd rfl hp
  rename_i s hs
  have hk := find?_some hs
  rw [Bool.and_eq_true, decide_eq_true_eq] at hk
  exact joins_of_mem (mem_reverse.1 (mem_of_find?_eq_some hs)) hk.1

theorem addShape_spec (d : PDDocument) (kind : PDShapeKind) (rect : BRect) (label : Option (List Byte)) :
    ∃ s : PDShape, s.id = d.fNextId ∧ s.kind = kind ∧ (d.addShape kind rect label).2 = d.fNextId ∧
      (d.addShape kind rect label).1.fShapes = d.fShapes ++ [s] ∧
      (d.addShape kind rect label).1.fNextId = d.fNextId + 1 ∧
      (d.addShape kind rect label).1.fUndo = d.snapshot.fUndo ∧ (d.addShape kind rect label).1.fRedo = [] :=
  ⟨_, rfl, rfl, rfl, rfl, rfl, rfl, rfl⟩

section
variable {d : PDDocument} (h : Kept d)
include h

theorem Kept.snapshot : Kept d.snapshot := by
  refine ⟨h.now, fun p hp => ?_, fun _ hp => nomatch hp⟩
  have hp' : p ∈ (d.fShapes, d.fNextId) :: d.fUndo := by
    unfold PDDocument.snapshot at hp
    dsimp only at hp
    split at hp
    · exact dropLast_subset _ hp
    · exact hp
  rcases mem_cons.1 hp' with rfl | hp'
  · exact h.now
  · exact h.undo p hp'

theorem Kept.withShapes {shapes : List PDShape} (hs : Intact shapes d.fNextId) (modified : Bool) :
    Kept { d with fShapes := shapes, fModified := modified } := ⟨hs, h.undo, h.redo⟩

theorem Kept.push (kind : PDShapeKind) (rect : BRect) (label : Option (List Byte)) {f : PDShape → PDShape}
    (hid : ∀ s, (f s).id = s.id) (hends : ∀ s, s.kind = kind → ∀ k ∈ (f s).ends, Joins d.fShapes k) :
    Kept { (d.addShape kind rect label).1 with fShapes := modifyBack f (d.addShape kind rect label).1.fShapes } := by
  obtain ⟨s, hs, hk, -, hshapes, hnext, hundo, hredo⟩ := addShape_spec d kind rect label
  refine ⟨?_, ?_, ?_⟩
  · show Intact (modifyBack f (d.addShape kind rect label).1.fShapes) (d.addShape kind rect label).1.fNextId
    rw [hshapes, hnext, modifyBack_append]
    exact h.now.append ((hid s).trans hs) (hends s hk)
  · show ∀ p ∈ (d.addShape kind rect label).1.fUndo, _
    rw [hundo]
    exact h.snapshot.undo
  · show ∀ p ∈ (d.addShape kind rect label).1.fRedo, _
    rw [hredo]
    exact fun _ hp => nomatch hp

theorem Kept.addShape {kind : PDShapeKind} (hk : kind ≠ .connector) (rect : BRect) (label : Option (List Byte)) :
    Kept (d.addShape kind rect label).1 := by
  obtain ⟨s, hs, hks, -, hshapes, hnext, hundo, hredo⟩ := addShape_spec d kind rect label
  refine ⟨?_, ?_, ?_⟩
  · rw [hshapes, hnext]
    refine h.now.append hs (fun k hk' => ?_)
    rw [PDShape.ends, if_neg (by rw [hks]; exact hk)] at hk'
    cases hk'
  · rw [hundo]
    exact h.snapshot.undo
  · rw [hredo]
    exact fun _ hp => nomatch hp

theorem Kept.addConnector {f : PDShape → PDShape} (hid : ∀ s, (f s).id = s.id)
    (hfrom : ∀ s, Joins d.fShapes (f s).fromId) (hto : ∀ s, Joins d.fShapes (f s).toId) : Kept (d.addConnector f).1 := by
  refine h.push .connector ⟨0, 0, 0, 0⟩ none hid (fun s _ k hk => ?_)
  unfold PDShape.ends at hk
  split at hk
  · rcases mem_cons.1 hk with rfl | hk
    · exact hfrom s
    · rw [mem_singleton.1 hk]
      exact hto s
  · cases hk

theorem Kept.connect (p q : BPoint) : Kept (d.connect p q) := by
  unfold PDDocument.connect
  dsimp only
  split
  · exact h
  · rename_i hn
    rw [not_or, not_or] at hn
    exact h.addConnector (fun _ => rfl) (fun _ => shapeAtPoint_joins hn.1) (fun _ => shapeAtPoint_joins hn.2.1)

theorem Kept.queueConnector (elbow : Bool) : Kept (d.queueConnector elbow) := by
  unfold PDDocument.queueConnector
  split
  · rename_i s t hst
    have hmem : ∀ u ∈ [s, t], Joins d.fShapes u.id := fun u hu => by
      rw [← hst] at hu
      obtain ⟨hu, hk⟩ := mem_filter.1 (mem_of_mem_take hu)
      exact joins_of_mem (mem_reverse.1 hu) (of_decide_eq_true hk)
    exact h.addConnector (fun _ => rfl) (fun _ => hmem t (mem_cons_of_mem s mem_cons_self))
      (fun _ => hmem s mem_cons_self)
  · exact h

theorem Kept.removeShapes (ids : List Int) : Kept (d.removeShapes ids) :=
  h.snapshot.withShapes (h.now.remove ids) true

theorem Kept.setShape (id : Int) (keep : PDShape → Bool) {f : PDShape → PDShape} (hf : ∀ s, (f s).joint = s.joint) :
    Kept (d.setShape id keep f) := by
  unfold PDDocument.setShape
  split
  · exact h
  · split
    · exact h
    · exact h.snapshot.withShapes (h.now.congr (modifyShape_joint id f hf d.fShapes)) true

theorem Kept.setGrid (g : Float32) : Kept (d.setGrid g) := by
  unfold PDDocument.setGrid
  split
  · exact ⟨h.now, h.undo, h.redo⟩
  · exact h

theorem Kept.addImageRGBA (width height : Int) (rgba : Option (Nat → UInt8)) : Kept (d.addImageRGBA width height rgba).1 := by
  unfold PDDocument.addImageRGBA
  split
  · exact h
  · split
    · exact ⟨h.now, h.undo, h.redo⟩
    · exact h

theorem Kept.moveZ (id : Int) (toFront : Bool) : Kept (d.moveZ id toFront) := by
  unfold PDDocument.moveZ
  dsimp only
  split
  · exact h
  rename_i s hs
  split
  · exact h
  split
  · exact h
  obtain ⟨hi, rfl⟩ := List.getElem?_eq_some_iff.1 hs
  have hp := (getElem_cons_eraseIdx_perm hi).symm
  refine h.snapshot.withShapes (h.now.perm ?_) true
  split
  · exact hp.trans (perm_append_singleton _ _).symm
  · exact hp

theorem Kept.align (ids : List Int) (mode : PDAlign) : Kept (d.align ids mode).1 := by
  unfold PDDocument.align
  by_cases hlen : ids.length < (if mode = .distributeH ∨ mode = .distributeV then 3 else 2)
  · rw [if_pos hlen]
    exact h
  rw [if_neg hlen]
  dsimp only
  split
  · exact h
  · split
    · exact h
    · exact h.snapshot.withShapes (h.now.congr (alignShapes_joint mode _ _ d.fShapes)) true

theorem Kept.undoOne : Kept d.undo := by
  unfold PDDocument.undo
  split
  · exact h
  rename_i shapes nextId rest hu
  have hd := h.undo
  rw [hu] at hd
  refine ⟨hd _ mem_cons_self, fun p hp => hd p (mem_cons_of_mem _ hp), fun p hp => ?_⟩
  rcases mem_cons.1 hp with rfl | hp
  · exact h.now
  · exact h.redo p hp

theorem Kept.redoOne : Kept d.redo := by
  unfold PDDocument.redo
  split
  · exact h
  rename_i shapes nextId rest hr
  have hd := h.redo
  rw [hr] at hd
  refine ⟨hd _ mem_cons_self, fun p hp => ?_, fun p hp => hd p (mem_cons_of_mem _ hp)⟩
  rcases mem_cons.1 hp with rfl | hp
  · exact h.now
  · exact h.undo p hp

end

/-! ## `DuplicateSelection` -/

structure Duplicates (r : Duplication) : Prop where
  kept : Kept r.doc
  joins : ∀ k v, r.remap.get? k = some v → Joins r.doc.fShapes v

theorem Duplicates.shape {r : Duplication} (h : Duplicates r) (id : Int) : Duplicates (duplicateShape r id) := by
  unfold duplicateShape
  split
  · exact h
  rename_i s hs
  split
  · exact h
  rename_i hk
  dsimp only
  obtain ⟨n, hn, hnk, hid, hshapes, -⟩ := addShape_spec r.doc s.kind (s.rect.offsetBy r.doc.fGrid r.doc.fGrid) (some s.label)
  refine ⟨h.kept.push s.kind _ _ (fun _ => rfl) (fun t ht k hk' => ?_), fun k v hv => ?_⟩
  · rw [PDShape.ends, if_neg (by show ¬ t.kind = _; rw [ht]; exact hk)] at hk'
    cases hk'
  · dsimp only at hv ⊢
    rw [hshapes, modifyBack_append]
    rw [SortedMap.get?_set, hid] at hv
    split at hv
    · cases hv
      exact ⟨_, mem_append_right _ mem_cons_self, hn, by show n.kind ≠ _; rw [hnk]; exact hk⟩
    · exact (h.joins k v hv).mono (fun _ ht => mem_append_left _ ht)

def InPlace (r : Duplication) (id : Int) : Prop :=
  ∀ s ∈ shapeById r.doc.fShapes id, s.kind = .connector →
    (r.remap.get? s.fromId).isSome ∧ (r.remap.get? s.toId).isSome → r.doc.fShapes.length ≠ r.doc.fCapacity

instance (r : Duplication) (id : Int) : Decidable (InPlace r id) := inferInstanceAs (Decidable (∀ _ ∈ _, _))

theorem remapAt_of_isSome {remap : SortedMap Int Int} {id : Int} (h : (remap.get? id).isSome) :
    remap.get? id = some (remapAt remap id).1 ∧ (remapAt remap id).2 = remap := by
  obtain ⟨v, hv⟩ := Option.isSome_iff_exists.1 h
  unfold remapAt
  rw [hv]
  exact ⟨rfl, rfl⟩

section
variable {freed : PDDocument → PDShape → PDShape}

theorem Duplicates.connector {r : Duplication} (h : Duplicates r) {id : Int} (hp : InPlace r id) :
    Duplicates (duplicateConnector freed r id) := by
  unfold duplicateConnector
  split
  · exact h
  rename_i s hs
  split
  · exact h
  rename_i hk
  split
  · rename_i hends
    dsimp only
    rw [if_neg (hp s hs (not_not.1 hk) hends)]
    obtain ⟨hfrom, hmap⟩ := remapAt_of_isSome hends.1
    obtain ⟨hto, hmap'⟩ := remapAt_of_isSome hends.2
    rw [hmap]
    obtain ⟨n, -, -, -, hshapes, -⟩ := addShape_spec r.doc .connector ⟨0, 0, 0, 0⟩ none
    refine ⟨h.kept.addConnector (fun _ => rfl) (fun _ => h.joins _ _ hfrom) (fun _ => h.joins _ _ hto), fun k v hv => ?_⟩
    dsimp only at hv ⊢
    rw [hmap'] at hv
    rw [hshapes, modifyBack_append]
    exact (h.joins k v hv).mono (fun _ ht => mem_append_left _ ht)
  · exact h

variable (freed)

/-- No turn of the second loop copies a connector while the shapes move. -/
def InPlaceAll : Duplication → List Int → Prop
  | _, []        => True
  | r, id :: ids => InPlace r id ∧ InPlaceAll (duplicateConnector freed r id) ids

theorem Duplicates.connectors : ∀ (ids : List Int) {r : Duplication}, Duplicates r → InPlaceAll freed r ids →
    Duplicates (ids.foldl (duplicateConnector freed) r)
  | [], _, h, _ => h
  | _ :: ids, _, h, hp => Duplicates.connectors ids (h.connector hp.1) hp.2

theorem Duplicates.shapes : ∀ (ids : List Int) {r : Duplication}, Duplicates r → Duplicates (ids.foldl duplicateShape r)
  | [], _, h => h
  | id :: ids, _, h => Duplicates.shapes ids (h.shape id)

def PDDocument.Admits (d : PDDocument) : Call → Prop
  | .duplicateSelection selection => InPlaceAll freed (selection.foldl duplicateShape { doc := d }) selection
  | _ => True

/-- **A call keeps the references.** -/
theorem Kept.call {d : PDDocument} (h : Kept d) {c : Call} (ha : d.Admits freed c) : Kept (d.call freed c) := by
  cases c with
  | addShape kind hk rect label => exact h.addShape hk rect label
  | addImageRGBA width height rgba => exact h.addImageRGBA width height rgba
  | connect p q => exact h.connect p q
  | queueConnector elbow => exact h.queueConnector elbow
  | removeShapes ids => exact h.removeShapes ids
  | setShapeRect id rect => exact h.setShape id _ (fun _ => rfl)
  | setShapeLabel id label => exact h.setShape id _ (fun _ => rfl)
  | setShapeStyle id style => exact h.setShape id _ (fun _ => rfl)
  | setShapeFlags id arrowEnd arrowStart orthogonal => exact h.setShape id _ (fun _ => rfl)
  | setGrid g => exact h.setGrid g
  | setSnapEnabled on => exact ⟨h.now, h.undo, h.redo⟩
  | setShowGrid on => exact ⟨h.now, h.undo, h.redo⟩
  | setPage p => exact ⟨h.now, h.undo, h.redo⟩
  | moveZ id toFront => exact h.moveZ id toFront
  | align ids mode => exact h.align ids mode
  | duplicateSelection selection =>
    have h0 : Duplicates { doc := d } := ⟨h, fun _ _ hv => nomatch hv⟩
    exact (Duplicates.connectors freed selection (Duplicates.shapes selection h0) ha).kept
  | pushUndo => exact h.snapshot
  | undo => exact h.undoOne
  | redo => exact h.redoOne
  | savedClean => exact ⟨h.now, h.undo, h.redo⟩

def PDDocument.AdmitsAll : PDDocument → List Call → Prop
  | _, []      => True
  | d, c :: cs => d.Admits freed c ∧ (d.call freed c).AdmitsAll cs

theorem Kept.calls : ∀ (cs : List Call) {d : PDDocument}, Kept d → d.AdmitsAll freed cs → Kept (d.calls freed cs)
  | [], _, h, _ => h
  | _ :: cs, _, h, ha => Kept.calls cs (h.call freed ha.1) ha.2

def PDDocument.Joined (d : PDDocument) : Prop :=
  (d.fShapes.map PDShape.id).Nodup ∧
    ∀ c ∈ d.fShapes, c.kind = .connector → ∀ id ∈ [c.fromId, c.toId], ∃ s ∈ d.fShapes, s.id = id ∧ s.kind ≠ .connector

/-- **Referential integrity** of every document a run reaches. -/
theorem joined_calls (cs : List Call) (ha : ({} : PDDocument).AdmitsAll freed cs) : (({} : PDDocument).calls freed cs).Joined := by
  have h := (kept_new.calls freed cs ha).now.closed
  refine ⟨h.nodup, fun c hc hk id hid => h.finds c hc id ?_⟩
  unfold PDShape.ends
  rw [if_pos hk]
  exact hid

end

/-- `n` boxes, and a connector between the last two. -/
def boxes (n : Nat) : List Call :=
  List.replicate n (.addShape .rect (by decide) ⟨0, 0, 96, 64⟩ none) ++ [.queueConnector false]

/-- The connector of five boxes, and the two it joins, duplicated: with the copies of the two, eight shapes fill the
vector, and `push_back` moves them.  The ends are read from memory given back, which is clear here. -/
theorem dangling_duplicate :
    ¬ ∀ (freed : PDDocument → PDShape → PDShape) (cs : List Call), (({} : PDDocument).calls freed cs).Joined := by
  intro h
  have hj := h (fun _ _ => {}) (boxes 5 ++ [.duplicateSelection [4, 5, 6]])
  exact absurd hj (by unfold PDDocument.Joined; decide)

/-- With four boxes there is room. -/
theorem joined_calls_boxes :
    (({} : PDDocument).calls (fun _ _ => {}) (boxes 4 ++ [.duplicateSelection [3, 4, 5]])).fShapes.length = 8 ∧
      (({} : PDDocument).calls (fun _ _ => {}) (boxes 4 ++ [.duplicateSelection [3, 4, 5]])).Joined := by
  refine ⟨by decide, joined_calls _ _ ⟨trivial, trivial, trivial, trivial, trivial, ⟨?_, ?_, ?_, trivial⟩, trivial⟩⟩
  · decide
  · decide
  · decide

end Draw
end Prose
