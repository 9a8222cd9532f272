import Prose.WriterInvariants
/-!
# WriterRedo — when an edit clears the redo stack

`PushUndo` clears it.  A typed character that the step on top takes never reaches `PushUndo`: the steps undone before it
stay, and `Redo` replays them onto another document.  Everything else that changes the document clears the stack.
-/
namespace Prose
namespace Writer

open Relation (ReflTransGen)

theorem pushUndo_fRedo {d : PWDocument} (hu : d.fInternalEdit = false) (ps : List Para) (n : Nat) (s : UndoStep) :
    ({ d with fParas := ps, fNextParaId := n }.pushUndo s).fRedo = [] := by
  unfold PWDocument.pushUndo
  rw [if_neg (show ¬ d.fInternalEdit = true by rw [hu]; exact Bool.false_ne_true)]

theorem DocStep.fRedo {d d' : PWDocument} (h : DocStep d d') (hu : d.fInternalEdit = false) :
    d'.fRedo = [] ∨ d'.fRedo = d.fRedo := by
  cases h with
  | @insertLine offset t fmt ht hn =>
    unfold PWDocument.insertLine
    dsimp only
    split
    · exact Or.inr rfl
    · exact Or.inl (pushUndo_fRedo hu _ _ _)
  | splitPara offset => exact Or.inl (pushUndo_fRedo hu _ _ _)
  | @remove offset length h0 hr =>
    unfold PWDocument.remove
    rw [if_neg (by omega)]
    exact Or.inl (pushUndo_fRedo hu _ _ _)
  | @applyFormat _ offset length fmt h0 hd =>
    unfold PWDocument.applyFormat at hd
    rw [if_neg (by omega)] at hd
    obtain ⟨runs, -, rfl⟩ := Option.map_eq_some_iff.1 hd
    exact Or.inl (pushUndo_fRedo hu _ _ _)
  | @setParaFormat para fmt hp =>
    unfold PWDocument.setParaFormat
    rw [if_neg (by omega)]
    exact Or.inl (pushUndo_fRedo hu _ _ _)
  | setImage i img hk => exact Or.inr rfl

theorem Edits.fRedo_nil {d d' : PWDocument} (h : Edits d d') (hu : d.fInternalEdit = false) (hr : d.fRedo = []) :
    d'.fRedo = [] := by
  induction h with
  | refl => exact hr
  | tail hd hs ih =>
    rcases hs.fRedo ((Edits.settings hd).internal.trans hu) with h | h
    · exact h
    · exact h.trans ih

theorem insertLine_fRedo {d : PWDocument} (hu : d.fInternalEdit = false) (offset : Nat) (t : List Byte)
    (fmt : Option PWCharFormat) :
    (d.insertLine offset t fmt).fRedo = if coalesces d offset t then d.fRedo else [] := by
  unfold PWDocument.insertLine
  dsimp only
  split
  · rfl
  · exact pushUndo_fRedo hu _ _ _

theorem insertLines_fRedo {d : PWDocument} (hu : d.fInternalEdit = false) (fmt : Option PWCharFormat) (at' : Nat)
    (seg l : List Byte) (ls : List (List Byte)) (hl : ∀ x ∈ seg :: l :: ls, newline ∉ x) :
    (insertLines fmt d at' (seg :: l :: ls)).fRedo = [] := by
  have h1 := insertSegment_edits d at' fmt (hl seg List.mem_cons_self)
  have h1u := (Edits.settings h1).internal.trans hu
  have h2 := splitPara_edits (d.insertSegment at' seg fmt) (at' + seg.length)
  exact Edits.fRedo_nil (insertLines_edits fmt (l :: ls) _ (at' + seg.length + 1)
    (fun x hx => hl x (List.mem_cons_of_mem seg hx))) ((Edits.settings h2).internal.trans h1u) (pushUndo_fRedo h1u _ _ _)

theorem lines_of_newline : ∀ {t : List Byte}, newline ∈ t → ∃ seg l ls, lines t = seg :: l :: ls
  | c :: t, h => by
    unfold lines
    by_cases hc : c = newline
    · rw [if_pos hc]
      cases hl : lines t with
      | nil => exact absurd hl (lines_ne_nil t)
      | cons x xs => exact ⟨[], x, xs, rfl⟩
    rw [if_neg hc]
    obtain ⟨seg, l, ls, hls⟩ := lines_of_newline ((List.mem_cons.1 h).resolve_left (fun h => hc h.symm))
    rw [hls]
    exact ⟨c :: seg, l, ls, rfl⟩

/-! ## The edits -/

def Edit.Single : Edit → Prop
  | .insert .. | .remove .. | .applyFormat .. | .setParaFormat .. | .splitPara .. | .insertImage .. => True
  | _ => False

def Edit.typesOn (d : PWDocument) : Edit → Bool
  | .insert offset text _ => !decide (newline ∈ text) && coalesces d offset text
  | .insertImage offset _ _ _ => coalesces d offset kObjectChar
  | _ => false

theorem edit_fRedo {d d' : PWDocument} {e : Edit} (hu : d.fInternalEdit = false) (he : e.Single) (h : d.edit e = some d')
    (hc : d'.fParas ≠ d.fParas) : d'.fRedo = if e.typesOn d then d.fRedo else [] := by
  cases e with
  | insert offset t fmt =>
    cases h
    unfold PWDocument.insert at hc ⊢
    unfold Edit.typesOn
    by_cases ht : t = []
    · rw [if_pos ht] at hc
      exact absurd rfl hc
    rw [if_neg ht]
    by_cases hn : newline ∈ t
    · obtain ⟨seg, l, ls, hls⟩ := lines_of_newline hn
      have hlines := newline_not_mem_lines t
      rw [hls] at hlines
      rw [if_pos hn, hls, insertLines_fRedo hu fmt offset seg l ls hlines]
      simp [hn]
    · rw [if_neg hn, insertLine_fRedo hu]
      simp [hn]
  | remove offset length =>
    cases h
    unfold PWDocument.remove at hc ⊢
    by_cases h0 : length = 0 ∨ offset ≥ docLength d.fParas
    · rw [if_pos h0] at hc
      exact absurd rfl hc
    · rw [if_neg h0]
      exact pushUndo_fRedo hu _ _ _
  | applyFormat offset length fmt =>
    have h : d.applyFormat offset length fmt = some d' := h
    unfold PWDocument.applyFormat at h
    by_cases h0 : length = 0
    · rw [if_pos h0] at h
      cases h
      exact absurd rfl hc
    · rw [if_neg h0] at h
      obtain ⟨runs, -, rfl⟩ := Option.map_eq_some_iff.1 h
      exact pushUndo_fRedo hu _ _ _
  | setParaFormat para fmt =>
    cases h
    unfold PWDocument.setParaFormat at hc ⊢
    by_cases h0 : para ≥ d.fParas.length
    · rw [if_pos h0] at hc
      exact absurd rfl hc
    · rw [if_neg h0]
      exact pushUndo_fRedo hu _ _ _
  | splitPara offset =>
    cases h
    exact pushUndo_fRedo hu _ _ _
  | insertImage offset bitmap w h' =>
    cases h
    unfold PWDocument.insertImage at hc ⊢
    cases bitmap with
    | none => exact absurd rfl hc
    | some b =>
      dsimp only at hc ⊢
      rw [insert_kObjectChar]
      exact insertLine_fRedo hu offset kObjectChar none
  | _ => exact he.elim

/-- **An edit leaves `CanRedo` false exactly when there was nothing to redo or the edit is no character the step on top
takes.** -/
theorem edit_canRedo {plain : FontFamily} {d d' : PWDocument} {e : Edit} (h : Reachable plain d) (he : e.Single)
    (hd : d.edit e = some d') (hc : d'.fParas ≠ d.fParas) :
    d'.canRedo = false ↔ d.canRedo = false ∨ e.typesOn d = false := by
  unfold PWDocument.canRedo
  rw [edit_fRedo h.user he hd hc]
  cases e.typesOn d with
  | true => simp
  | false => simp

/-- `a` typed, the paragraph split behind it, the split undone. -/
def undoneSplit : List Call := [.edit (.insert 0 [byteA] none), .edit (.splitPara 1), .undo]

/-- **Typing on after an `Undo` keeps the redo stack**: the split waits there behind the new `b`. -/
theorem typing_keeps_redo : ∃ d d', Reachable noFamily d ∧ d.edit (.insert 1 [byteB] none) = some d' ∧
    d'.fParas ≠ d.fParas ∧ d'.canRedo = true :=
  ⟨_, _, Calls.of_callAll undoneSplit rfl, rfl, by decide, by decide⟩

theorem edit_canRedo_undoneSplit : ∃ d d', Reachable noFamily d ∧ d.edit (.splitPara 0) = some d' ∧
    (d'.canRedo = false ↔ d.canRedo = false ∨ Edit.typesOn d (.splitPara 0) = false) := by
  refine ⟨_, _, Calls.of_callAll undoneSplit rfl, rfl, ?_⟩
  exact edit_canRedo (Calls.of_callAll undoneSplit rfl) trivial rfl (by decide)

end Writer
end Prose
