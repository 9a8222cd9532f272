import Prose.PackageArranged
/-!
# PackageMoves — the two loops over the Applications menu

`categorize_deskbar_entries` goes through the entries by name, `categorized_listing` through the listing in its order.
-/
namespace Prose
namespace LocalPackages

open List

variable {categories : List (Text × Text)} {icons : List (Text × List UInt8)}

/-! ## The listing -/

def listMoves (categories : List (Text × Text)) (contents : Contents) (name : Text) : Option Text :=
  (contents (entry name)).bind fun v => if v.mode.head? = some 'l' then categories.lookup name else none

def listMade (icons : List (Text × List UInt8)) (apps : Value) (folder : Text) : Value :=
  { apps with lines := withIconLine icons folder apps.lines }

def listMoved (contents : Contents) (name : Text) : Value :=
  let v := (contents (entry name)).getD ⟨[], [], [], []⟩
  { v with link := linkText v.link }

def seen {β : Type} (done : List Path) (f : Path → Option β) (p : Path) : Option β := if p ∈ done then f p else none

theorem seen_cons {β : Type} (done : List Path) (f : Path → Option β) (p : Path) (v : Option β) (h : f p = v) :
    seen (p :: done) f = Function.update (seen done f) p v := by
  funext q
  unfold seen
  by_cases hq : q = p
  · rw [if_pos (hq ▸ mem_cons_self), hq, Function.update_self, h]
  · rw [Function.update_of_ne hq]
    simp only [mem_cons, hq, false_or]

theorem seen_cons_none {β : Type} (done : List Path) (f : Path → Option β) (p : Path) (h : f p = none) :
    seen (p :: done) f = seen done f := by
  rw [seen_cons done f p none h]
  refine Function.update_eq_self_iff.2 ?_
  unfold seen
  rw [h, ite_self]

def seenMoves (moves : Text → Option Text) (done : List Path) (name : Text) : Option Text :=
  if entry name ∈ done then moves name else none

theorem seenMoves_cons_none {moves : Text → Option Text} {done : List Path} {p : Path} (h : ∀ x, p = entry x → moves x = none) :
    seenMoves moves (p :: done) = seenMoves moves done := by
  funext n
  unfold seenMoves
  by_cases hp : p = entry n
  · rw [h n hp, ite_self, ite_self]
  · simp only [mem_cons, Ne.symm hp, false_or]

theorem seenMoves_cons {moves : Text → Option Text} {done : List Path} {name folder : Text} (h : moves name = some folder) :
    seenMoves moves (entry name :: done) = Function.update (seenMoves moves done) name (some folder) := by
  funext n
  by_cases hn : n = name
  · rw [hn, Function.update_self]
    unfold seenMoves
    rw [if_pos mem_cons_self, h]
  rw [Function.update_of_ne hn]
  unfold seenMoves
  have hne : entry n ≠ entry name := fun he => hn (entry_injective he)
  simp only [mem_cons, hne, false_or]

section
variable {contents : Contents} {apps : Value} (happs : ∀ n f, listMoves categories contents n = some f → contents applications = some apps)
  (hfree : ∀ n f, listMoves categories contents n = some f → contents (inFolder f n) = none)
include happs

theorem listFolder_folded {n folder : Text} (h : listMoves categories contents n = some folder) (moved : Contents) :
    listFolder contents icons moved folder = some (Arranged.folded (listMade icons apps) moved folder) := by
  unfold listFolder Arranged.folded
  rw [happs n folder h]
  split <;> rfl

include hfree

/-- **An entry of the listing.** -/
theorem listOne_arranged {done : List Path} {p : Path} {v : Value} {moved : Contents} (hp : p ∉ done) (hv : contents p = some v)
    (h : Arranged (seen done contents) (seenMoves (listMoves categories contents) done) (listMade icons apps) (listMoved contents) moved) :
    ∃ moved', listOne contents categories icons moved p v = some moved' ∧
      Arranged (seen (p :: done) contents) (seenMoves (listMoves categories contents) (p :: done)) (listMade icons apps)
        (listMoved contents) moved' := by
  have hstay (hm : ∀ x, p = entry x → listMoves categories contents x = none) :
      Arranged (seen (p :: done) contents) (seenMoves (listMoves categories contents) (p :: done)) (listMade icons apps)
        (listMoved contents) (Function.update moved p (some v)) := by
    rw [seen_cons done contents p _ hv, seenMoves_cons_none hm]
    refine h.keep (fun x hx => ?_) fun f n hn hm => ?_
    · unfold seenMoves
      rw [hm x hx, ite_self]
    · unfold seenMoves at hm
      split at hm
      · have hnone := hfree n f hm
        rw [← hn, hv] at hnone
        exact nomatch hnone
      · exact nomatch hm
  unfold listOne
  split
  · next name folder hname =>
    obtain ⟨name', hin, hname⟩ := Option.bind_eq_some_iff.1 hname
    obtain ⟨folder', hfolder, hname⟩ := Option.map_eq_some_iff.1 hname
    obtain ⟨rfl, rfl⟩ := Prod.mk.inj hname
    obtain rfl := eq_entry hin
    split
    · next hl =>
      have hmoves : listMoves categories contents name' = some folder' := by
        unfold listMoves
        rw [hv, Option.bind_some, if_pos hl, hfolder]
      have hmoved : (some { v with link := linkText v.link } : Option Value) = some (listMoved contents name') := by
        unfold listMoved
        rw [hv]
        rfl
      refine ⟨_, congrArg (Option.map _) (listFolder_folded happs hmoves moved), ?_⟩
      rw [seen_cons done contents _ _ hv, seenMoves_cons hmoves, hmoved]
      exact h.move (if_neg hp) (if_neg hp)
    · next hl =>
      refine ⟨_, rfl, hstay fun x hx => ?_⟩
      unfold listMoves
      rw [← hx, hv, Option.bind_some, if_neg hl]
  · next hnone =>
    refine ⟨_, rfl, hstay fun x hx => ?_⟩
    rw [hx, inApplications_entry, Option.bind_some, Option.map_eq_none_iff] at hnone
    unfold listMoves
    rw [hnone]
    cases contents (entry x) with
    | none => rfl
    | some w => exact ite_self _

theorem listLoop {order done : List Path} {moved : Contents} (hnodup : (order ++ done).Nodup)
    (h : Arranged (seen done contents) (seenMoves (listMoves categories contents) done) (listMade icons apps) (listMoved contents) moved) :
    ∃ moved', order.foldlM (fun moved p => match contents p with
        | some v => listOne contents categories icons moved p v
        | none => some moved) moved = some moved' ∧
      Arranged (seen (order.reverse ++ done) contents) (seenMoves (listMoves categories contents) (order.reverse ++ done))
        (listMade icons apps) (listMoved contents) moved' := by
  induction order generalizing done moved with
  | nil => exact ⟨moved, rfl, h⟩
  | cons p order ih =>
    obtain ⟨hp, hnodup⟩ := nodup_cons.1 hnodup
    have hnodup' : (order ++ p :: done).Nodup := nodup_middle.2 (nodup_cons.2 ⟨hp, hnodup⟩)
    rw [foldlM_cons, reverse_cons, append_assoc, singleton_append]
    cases hv : contents p with
    | none =>
      refine ih hnodup' ?_
      rw [seen_cons_none done contents p hv, seenMoves_cons_none fun x hx => ?_]
      · exact h
      · unfold listMoves
        rw [← hx, hv]
        rfl
    | some v =>
      obtain ⟨moved', ho, h⟩ := listOne_arranged happs hfree (fun hd => hp (mem_append_right _ hd)) hv h
      dsimp only
      rw [ho]
      exact ih hnodup' h

/-- **`categorized_listing`** puts the entries that are links and have a folder into it. -/
theorem categorizedListing_arranged {attributes : Attributes} {order : List Path} (hnodup : order.Nodup)
    (hall : ∀ p, (contents p).isSome = true → p ∈ order) :
    ∃ d, categorizedListing ⟨attributes, order, contents⟩ categories icons = some (attributes, d) ∧
      Arranged contents (listMoves categories contents) (listMade icons apps) (listMoved contents) d := by
  have hseen : seen (order.reverse ++ []) contents = contents := by
    funext p
    unfold seen
    cases hp : contents p with
    | none => exact ite_self _
    | some v => rw [if_pos (mem_append_left _ (mem_reverse.2 (hall p (by rw [hp]; rfl))))]
  have hmoves : seenMoves (listMoves categories contents) (order.reverse ++ []) = listMoves categories contents := by
    funext n
    unfold seenMoves
    split
    · rfl
    rename_i hn
    unfold listMoves
    cases hp : contents (entry n) with
    | none => rfl
    | some v => exact absurd (mem_append_left _ (mem_reverse.2 (hall _ (by rw [hp]; rfl)))) hn
  have hstart : Arranged (seen [] contents) (seenMoves (listMoves categories contents) []) (listMade icons apps) (listMoved contents)
      (fun _ => none) := .nothing _ _ _
  have hnodup' : (order ++ []).Nodup := by rw [append_nil]; exact hnodup
  obtain ⟨d, hd, h⟩ := listLoop happs hfree hnodup' hstart
  rw [hseen, hmoves] at h
  exact ⟨d, congrArg (Option.map _) hd, h⟩

end

/-! ## The files -/

def fileMoves (categories : List (Text × Text)) (fs : Files) (name : Text) : Option Text :=
  if isLink (fs (entry name)) then categories.lookup name else none

def madeNode (icons : List (Text × List UInt8)) (apps : Node) (folder : Text) : Node :=
  { kind := .dir, mode := apps.mode, attrs := withIcon icons folder (copyHaikuAttributes apps.attrs []) }

def downNode : Node → Node
  | ⟨.link target, mode, attrs⟩ => ⟨.link (linkDown target), mode, copyHaikuAttributes attrs []⟩
  | n => n

def movedNode (fs : Files) (name : Text) : Node := downNode ((fs (entry name)).getD { kind := .dir })

/-- What the loop over the entries has come to: no folder is a link, and there was nothing where the entries have gone. -/
structure Moving (categories : List (Text × Text)) (icons : List (Text × List UInt8)) (apps : Node) (fs₀ : Files) (done : List Path)
    (fs : Files) : Prop where
  arranged : Arranged fs₀ (seenMoves (fileMoves categories fs₀) done) (madeNode icons apps) (movedNode fs₀) fs
  dirs : ∀ n x, seenMoves (fileMoves categories fs₀) done n = some x → isLink (fs (entry x)) = false
  free : ∀ n f, seenMoves (fileMoves categories fs₀) done n = some f → fs₀ (inFolder f n) = none

theorem makeFolder_folded {apps : Node} {fs fs' : Files} {folder : Text} (ha : fs applications = some apps)
    (h : makeFolder icons fs folder = .ok fs') :
    fs' = Arranged.folded (madeNode icons apps) fs folder ∧ isLink (fs (entry folder)) = false := by
  unfold makeFolder at h
  unfold Arranged.folded
  rw [ha] at h
  split at h
  · next hf ha' =>
    cases ha'
    rw [hf]
    exact ⟨(Except.ok.inj h).symm, rfl⟩
  · next hf =>
    rw [hf]
    exact ⟨(Except.ok.inj h).symm, rfl⟩
  · exact nomatch h
  · exact nomatch h

/-- **An entry of the menu.** -/
theorem Moving.step {apps : Node} {fs₀ fs fs' : Files} {done : List Path} {name : Text} (ha : fs₀ applications = some apps)
    (h : Moving categories icons apps fs₀ done fs) (hdone : entry name ∉ done) (hname : (fs₀ (entry name)).isSome = true)
    (hs : moveEntry categories icons fs name = .ok fs') : Moving categories icons apps fs₀ (entry name :: done) fs' := by
  obtain ⟨node, hnode⟩ := Option.isSome_iff_exists.1 hname
  have hnone : seenMoves (fileMoves categories fs₀) done name = none := if_neg hdone
  have hfs : fs (entry name) = some node := h.arranged.kept name node hnone hnode
  unfold moveEntry at hs
  split at hs
  · next folder target mode attrs hc hn =>
    obtain rfl := Option.some.inj (hfs.symm.trans hn)
    have hlink : isLink (fs₀ (entry name)) = true := by rw [hnode]; rfl
    have hmoves : fileMoves categories fs₀ name = some folder := (if_pos hlink).trans hc
    cases hf : makeFolder icons fs folder with
    | error e =>
      rw [hf] at hs
      exact nomatch hs
    | ok fs₁ =>
      rw [hf] at hs
      obtain ⟨rfl, hfolder⟩ := makeFolder_folded (h.arranged.root.trans ha) hf
      have hne : folder ≠ name := fun he => by
        rw [he, hn] at hfolder
        exact nomatch hfolder
      have hback : ∀ n, seenMoves (fileMoves categories fs₀) done n ≠ some name := fun n he => by
        have := h.dirs n name he
        rw [hn] at this
        exact nomatch this
      replace hs : (if ((Arranged.folded (madeNode icons apps) fs folder) (inFolder folder name)).isSome then .error Stop.raised
        else .ok (Function.update (Function.update (Arranged.folded (madeNode icons apps) fs folder) (inFolder folder name)
          (some (movedNode fs₀ name))) (entry name) none)) = Except.ok fs' := by
        unfold movedNode
        rw [hnode]
        exact hs
      split at hs
      · exact nomatch hs
      rename_i hnew
      obtain rfl := Except.ok.inj hs
      rw [Arranged.folded_of_ne (entry_ne_inFolder folder folder name).symm, Bool.not_eq_true, Option.isSome_eq_false_iff,
        Option.isNone_iff_eq_none] at hnew
      have hfree : fs₀ (inFolder folder name) = none := by
        rw [← hnew]
        refine (h.arranged.other _ (fun x he => entry_ne_inFolder x folder name he.symm) fun f n he hn' => ?_).symm
        rw [← (inFolder_inj he).2, hnone] at hn'
        exact nomatch hn'
      have hforget := @Arranged.move _ _ _ _ _ _ (h.arranged.forget hback) name folder ⟨.link target, mode, attrs⟩ hnone
        (Function.update_self _ _ _)
      rw [Function.update_idem, Function.update_eq_self_iff.2 hnode.symm, ← seenMoves_cons hmoves] at hforget
      have hresult : Function.update (Arranged.folded (madeNode icons apps) (Function.update fs (entry name) none) folder)
          (inFolder folder name) (some (movedNode fs₀ name)) =
          Function.update (Function.update (Arranged.folded (madeNode icons apps) fs folder) (inFolder folder name)
            (some (movedNode fs₀ name))) (entry name) none := by
        have hfe : entry folder ≠ entry name := fun he => hne (entry_injective he)
        rw [Function.update_comm (entry_ne_inFolder name folder name).symm]
        congr 1
        unfold Arranged.folded
        rw [Function.update_of_ne hfe]
        split
        · rfl
        · exact Function.update_comm hfe.symm _ _ _
      rw [hresult] at hforget
      refine ⟨hforget, fun n x hn' => ?_, fun n f hn' => ?_⟩
      · rw [Function.update_comm (entry_ne_inFolder name folder name).symm, Function.update_of_ne (entry_ne_inFolder x folder name)]
        by_cases hx : x = name
        · rw [hx, Function.update_self]
          rfl
        rw [Function.update_of_ne fun he => hx (entry_injective he)]
        rw [seenMoves_cons hmoves] at hn'
        by_cases hxf : x = folder
        · rw [hxf]
          unfold Arranged.folded
          split
          · exact hfolder
          · rw [Function.update_self]
            rfl
        · rw [Arranged.folded_of_ne fun he => hxf (entry_injective he)]
          by_cases hnn : n = name
          · rw [hnn, Function.update_self] at hn'
            exact absurd (Option.some.inj hn').symm hxf
          · rw [Function.update_of_ne hnn] at hn'
            exact h.dirs n x hn'
      · rw [seenMoves_cons hmoves] at hn'
        by_cases hnn : n = name
        · rw [hnn, Function.update_self] at hn'
          rw [hnn, ← Option.some.inj hn']
          exact hfree
        · rw [Function.update_of_ne hnn] at hn'
          exact h.free n f hn'
  · next hno =>
    obtain rfl := Except.ok.inj hs
    have hmoves : seenMoves (fileMoves categories fs₀) (entry name :: done) = seenMoves (fileMoves categories fs₀) done := by
      refine seenMoves_cons_none fun x hx => ?_
      obtain rfl := entry_injective hx
      unfold fileMoves
      split
      · next hl =>
        rw [hnode] at hl
        obtain ⟨kind, mode, attrs⟩ := node
        cases kind with
        | link target =>
          cases hc : categories.lookup name with
          | none => rfl
          | some folder => exact absurd hfs (hno folder target mode attrs hc)
        | dir | file _ => exact nomatch hl
      · rfl
    exact ⟨hmoves ▸ h.arranged, hmoves ▸ h.dirs, hmoves ▸ h.free⟩

theorem Moving.loop {apps : Node} {fs₀ : Files} (ha : fs₀ applications = some apps) {names : List Text} {done : List Path} {fs fs' : Files}
    (h : Moving categories icons apps fs₀ done fs) (hnodup : names.Nodup) (hdone : ∀ n ∈ names, entry n ∉ done)
    (hnames : ∀ n ∈ names, (fs₀ (entry n)).isSome = true) (hs : names.foldlM (moveEntry categories icons) fs = .ok fs') :
    Moving categories icons apps fs₀ ((names.map entry).reverse ++ done) fs' := by
  induction names generalizing done fs with
  | nil =>
    obtain rfl := Except.ok.inj hs
    exact h
  | cons name names ih =>
    rw [foldlM_cons] at hs
    obtain ⟨hname, hnodup⟩ := nodup_cons.1 hnodup
    cases hm : moveEntry categories icons fs name with
    | error e =>
      rw [hm] at hs
      exact nomatch hs
    | ok fs₁ =>
      rw [hm] at hs
      rw [map_cons, reverse_cons, append_assoc, singleton_append]
      refine ih (h.step ha (hdone name mem_cons_self) (hnames name mem_cons_self) hm) hnodup (fun n hn => ?_)
        (fun n hn => hnames n (mem_cons_of_mem _ hn)) hs
      rintro (_ | ⟨_, hmem⟩)
      · exact hname hn
      · exact hdone n (mem_cons_of_mem _ hn) hmem

end LocalPackages
end Prose
