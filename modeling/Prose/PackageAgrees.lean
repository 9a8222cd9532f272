import Mathlib.Data.List.Induction
import Prose.PackageMoves
/-!
# PackageAgrees — the listing of what is copied, and the listing that is expected

The two agree on everything but one attribute: a folder that is made has Applications' attributes and its icon, and where Applications
has an icon itself, the files have one of the two and the listing both.
-/
namespace Prose
namespace LocalPackages

open List

/-! ## What is left out -/

namespace Tree

variable (t : Tree)

theorem dir_of_below {p : Path} (hp : p ≠ []) (x : Text) : ∀ q : Path, (t.node (p ++ x :: q)).isSome = true →
    ∃ n, t.node p = some n ∧ n.kind = .dir := fun q => by
  induction q using List.reverseRecOn with
  | nil => exact fun h => t.parent hp h
  | append_singleton q y ih =>
    intro h
    refine ih ?_
    rw [← cons_append, ← append_assoc] at h
    obtain ⟨n, hn, -⟩ := t.parent (append_ne_nil_of_left_ne_nil hp _) h
    rw [hn]
    rfl

theorem none_below {p : Path} (hp : p ≠ []) (h : t.node p = none) : ∀ q, t.node (p ++ q) = none
  | [] => by rw [append_nil, h]
  | x :: q => by
    refine Option.eq_none_iff_forall_ne_some.2 fun n hn => ?_
    obtain ⟨m, hm, -⟩ := t.dir_of_below hp x q (by rw [hn]; rfl)
    rw [h] at hm
    exact nomatch hm

end Tree

def Gone (blocked : List Text) (p : Path) (n : Node) : Prop :=
  (∃ name ∈ blocked, app name <+: p) ∨
    (menu <+: p ∧ p ≠ menu ∧ (∃ name ∈ blocked, p.getLast? = some name) ∧ n.kind ≠ .dir)

instance (blocked : List Text) (p : Path) (n : Node) : Decidable (Gone blocked p n) :=
  inferInstanceAs (Decidable ((∃ name ∈ blocked, _) ∨ (_ ∧ _ ∧ (∃ name ∈ blocked, _) ∧ _)))

def remaining (blocked : List Text) (fs : Files) : Files := fun p => (fs p).bind fun n => if Gone blocked p n then none else some n

theorem remaining_some {blocked : List Text} {fs : Files} {p : Path} {n : Node} (h : remaining blocked fs p = some n) :
    fs p = some n ∧ ¬ Gone blocked p n := by
  obtain ⟨m, hm, h⟩ := Option.bind_eq_some_iff.1 h
  split at h
  · exact nomatch h
  · next hg =>
    cases h
    exact ⟨hm, hg⟩

theorem removeApps_eq {l : List Text} : ∀ {fs : Files}, (∀ p q, p ≠ [] → fs p = none → fs (p ++ q) = none) → ∀ p,
    l.foldl (fun fs name => if (fs (app name)).isSome then rmtree fs (app name) else fs) fs p =
      if ∃ name ∈ l, app name <+: p then none else fs p := by
  induction l with
  | nil => exact fun _ p => (if_neg fun ⟨_, h, _⟩ => nomatch h).symm
  | cons name l ih =>
    intro fs hclosed p
    have hstep : (if (fs (app name)).isSome then rmtree fs (app name) else fs) = rmtree fs (app name) := by
      split
      · rfl
      rename_i hn
      funext q
      unfold rmtree
      split
      · next hq =>
        obtain ⟨r, rfl⟩ := hq
        rw [Bool.not_eq_true, Option.isSome_eq_false_iff, Option.isNone_iff_eq_none] at hn
        exact hclosed _ r (cons_ne_nil _ _) hn
      · rfl
    rw [foldl_cons, hstep, ih fun q r hq h => ?_]
    · unfold rmtree
      by_cases hp : app name <+: p
      · rw [if_pos hp, ite_self, if_pos ⟨name, mem_cons_self, hp⟩]
      · rw [if_neg hp]
        simp only [mem_cons, exists_eq_or_imp, hp, false_or]
    · unfold rmtree at h ⊢
      by_cases hp : app name <+: q
      · rw [if_pos (hp.trans (prefix_append q r))]
      · rw [if_neg hp] at h
        rw [hclosed q r hq h, ite_self]

theorem removeEntries_eq {blocked : List Text} {l : List Path} : ∀ {fs : Files} (p : Path),
    removeEntries blocked fs l p =
      if p ∈ l ∧ (∃ name ∈ blocked, p.getLast? = some name) ∧ ¬ isDir (fs p) then none else fs p := by
  induction l with
  | nil => exact fun p => (if_neg fun ⟨h, _⟩ => nomatch h).symm
  | cons q l ih =>
    intro fs p
    show removeEntries blocked (if _ then _ else _) l p = _
    rw [ih]
    by_cases hpq : p = q
    · subst hpq
      by_cases hc : (∃ name ∈ blocked, p.getLast? = some name) ∧ ¬ isDir (fs p)
      · rw [if_pos hc, Function.update_self, ite_self, if_pos ⟨mem_cons_self, hc⟩]
      · rw [if_neg hc, if_neg fun h => hc h.2, if_neg fun h => hc h.2]
    have hfs : (if (∃ name ∈ blocked, q.getLast? = some name) ∧ ¬ isDir (fs q) then Function.update fs q none else fs) p = fs p := by
      split
      · exact Function.update_of_ne hpq _ _
      · rfl
    rw [hfs]
    simp only [mem_cons, hpq, false_or]

theorem isDir_some {n : Node} : isDir (some n) = true ↔ n.kind = .dir := by
  obtain ⟨kind, mode, attrs⟩ := n
  cases kind <;> simp [isDir]

theorem app_not_menu (name : Text) {p : Path} (hp : menu <+: p) : ¬ app name <+: p := by
  obtain ⟨q, rfl⟩ := hp
  rintro ⟨r, hr⟩
  exact absurd (List.cons.inj hr).1 (by decide)

/-- **`remove_blocked_apps`** leaves what is to be left. -/
theorem removeBlockedApps_eq {t : Tree} {blocked : List Text} {fs : Files} (h : removeBlockedApps t.paths t.node blocked = .ok fs) :
    fs = remaining blocked t.node := by
  unfold removeBlockedApps at h
  split at h
  · exact nomatch h
  have happs (p : Path) : removeApps blocked t.node p = if ∃ name ∈ blocked, app name <+: p then none else t.node p := by
    unfold removeApps
    rw [removeApps_eq fun q r hq hn => t.none_below hq hn r]
    simp only [sorted, mem_insertionSort]
  have hmenu {p : Path} (hp : menu <+: p) : removeApps blocked t.node p = t.node p := by
    rw [happs, if_neg fun ⟨name, _, hn⟩ => app_not_menu name hp hn]
  obtain rfl := Except.ok.inj h
  funext p
  unfold remaining
  by_cases hp : menu <+: p
  · have hnot : ¬ ∃ name ∈ blocked, app name <+: p := fun ⟨name, _, hn⟩ => app_not_menu name hp hn
    cases hn : t.node p with
    | none =>
      have hnone := (hmenu hp).trans hn
      split
      · rw [removeEntries_eq, hnone, ite_self]
        rfl
      · exact hnone
    | some n =>
      have hsome := (hmenu hp).trans hn
      have hgone : Gone blocked p n ↔ p ≠ menu ∧ (∃ name ∈ blocked, p.getLast? = some name) ∧ n.kind ≠ .dir := by
        unfold Gone
        simp only [hnot, false_or, hp, true_and]
      show _ = if Gone blocked p n then none else some n
      split
      · have hmem : p ∈ below t.paths (removeApps blocked t.node) ↔ p ≠ menu := by
          unfold below sorted
          rw [mem_insertionSort, mem_filter, hsome]
          simp only [Option.isSome_some, and_true, hp, true_and, decide_eq_true_eq]
          exact and_iff_right (t.mem.2 (by rw [hn]; rfl))
        rw [removeEntries_eq]
        simp only [hmem, hsome, isDir_some, hgone, ne_eq]
      · next hdir =>
        rw [hmenu (prefix_refl _)] at hdir
        rw [hsome, if_neg]
        rw [hgone]
        rintro ⟨hne, -, -⟩
        obtain ⟨q, rfl⟩ := hp
        cases q with
        | nil => exact hne (append_nil _)
        | cons x q =>
          obtain ⟨m, hm, hkind⟩ := t.dir_of_below (p := menu) (cons_ne_nil _ _) x q (by rw [hn]; rfl)
          exact hdir (by rw [hm]; exact isDir_some.2 hkind)
  · have hfs : (if isDir (removeApps blocked t.node menu) = true then
        removeEntries blocked (removeApps blocked t.node) (below t.paths (removeApps blocked t.node))
        else removeApps blocked t.node) p = removeApps blocked t.node p := by
      split
      · rw [removeEntries_eq, if_neg]
        rintro ⟨hmem, -⟩
        unfold below sorted at hmem
        rw [mem_insertionSort, mem_filter] at hmem
        exact hp (of_decide_eq_true hmem.2).1
      · rfl
    rw [hfs, happs]
    have hgone (n : Node) : Gone blocked p n ↔ ∃ name ∈ blocked, app name <+: p := by
      unfold Gone
      simp only [hp, false_and, or_false]
    cases t.node p with
    | none => exact ite_self _
    | some n =>
      show _ = if Gone blocked p n then none else some n
      simp only [hgone]

theorem remaining_nil (fs : Files) : remaining [] fs = fs := by
  funext p
  unfold remaining
  cases fs p with
  | none => rfl
  | some n =>
    refine if_neg ?_
    rintro (⟨_, h, _⟩ | ⟨_, _, ⟨_, h, _⟩, _⟩) <;> exact nomatch h

theorem value_dir (tool : Tool) (n : Node) : (tool.value n).mode.head? = some 'd' ↔ n.kind = .dir := by
  obtain ⟨kind, mode, attrs⟩ := n
  cases kind <;> simp [Tool.value]

/-- **`unblocked_listing`** is the listing of what is left. -/
theorem unblockedListing_eq (tool : Tool) (p : Package) (blocked : List Text) :
    (unblockedListing (tool.listing p) blocked).attributes = tool.attributes p.info ∧
      (unblockedListing (tool.listing p) blocked).contents = tool.contents (remaining blocked p.tree.node) ∧
      (unblockedListing (tool.listing p) blocked).order.Nodup ∧
      ∀ q, (tool.contents (remaining blocked p.tree.node) q).isSome = true → q ∈ (unblockedListing (tool.listing p) blocked).order := by
  have hpaths (q : Path) (hq : (tool.contents (remaining blocked p.tree.node) q).isSome = true) : q ∈ p.tree.paths := by
    obtain ⟨v, hv⟩ := Option.isSome_iff_exists.1 hq
    obtain ⟨n, hn, -⟩ := Option.map_eq_some_iff.1 hv
    exact p.tree.mem.2 (by rw [(remaining_some hn).1]; rfl)
  unfold unblockedListing
  by_cases hb : blocked = []
  · subst hb
    rw [if_pos rfl]
    refine ⟨rfl, ?_, p.tree.nodup, hpaths⟩
    rw [remaining_nil]
    rfl
  rw [if_neg hb]
  have hkeep : (fun q => ((tool.listing p).contents q).bind fun v => if dropped blocked q v then none else some v) =
      tool.contents (remaining blocked p.tree.node) := by
    funext q
    unfold Tool.listing Tool.contents remaining
    dsimp only
    cases p.tree.node q with
    | none => rfl
    | some n =>
      have hiff : dropped blocked q (tool.value n) ↔ Gone blocked q n := by
        unfold dropped Gone
        simp only [ne_eq, value_dir]
      simp only [Option.map_some, Option.bind_some, hiff]
      split <;> rfl
  dsimp only
  rw [hkeep]
  refine ⟨rfl, rfl, p.tree.nodup.filter _, fun q hq => ?_⟩
  exact mem_filter.2 ⟨hpaths q hq, by rw [congrFun hkeep q]; exact hq⟩

/-! ## The menu -/

theorem isLink_some {n : Node} : isLink (some n) = true ↔ ∃ target, n.kind = .link target := by
  obtain ⟨kind, mode, attrs⟩ := n
  cases kind <;> simp [isLink]

theorem fileMoves_some {categories : List (Text × Text)} {fs : Files} {name folder : Text}
    (h : fileMoves categories fs name = some folder) :
    categories.lookup name = some folder ∧ ∃ target mode attrs, fs (entry name) = some ⟨.link target, mode, attrs⟩ := by
  unfold fileMoves at h
  split at h
  · next hl =>
    refine ⟨h, ?_⟩
    cases hn : fs (entry name) with
    | none =>
      rw [hn] at hl
      exact nomatch hl
    | some n =>
      obtain ⟨kind, mode, attrs⟩ := n
      rw [hn] at hl
      obtain ⟨target, rfl⟩ := isLink_some.1 hl
      exact ⟨target, mode, attrs, rfl⟩
  · exact nomatch h

theorem mem_children {paths : List Path} {fs : Files} (hpaths : ∀ p, (fs p).isSome = true → p ∈ paths) {name : Text} :
    name ∈ children paths fs ↔ (fs (entry name)).isSome = true := by
  unfold children
  rw [mem_filterMap]
  refine ⟨fun ⟨p, hp, hn⟩ => ?_, fun h => ⟨entry name, mem_filter.2 ⟨hpaths _ h, h⟩, inApplications_entry name⟩⟩
  rw [← eq_entry hn]
  exact (mem_filter.1 hp).2

theorem children_nodup {paths : List Path} (hnodup : paths.Nodup) (fs : Files) : (children paths fs).Nodup :=
  (hnodup.filter _).filterMap fun p q name hp hq => by
    rw [eq_entry (Option.mem_def.1 hp), eq_entry (Option.mem_def.1 hq)]

/-- **`categorize_deskbar_entries`** puts the links that have a folder into it. -/
theorem categorize_arranged {paths : List Path} {fs fs' : Files} {categories : List (Text × Text)} {icons : List (Text × List UInt8)}
    {apps : Node} (hnodup : paths.Nodup) (hpaths : ∀ p, (fs p).isSome = true → p ∈ paths)
    (happs : ∀ n f, fileMoves categories fs n = some f → fs applications = some apps ∧ apps.kind = .dir)
    (h : categorize paths fs categories icons = .ok fs') :
    Arranged fs (fileMoves categories fs) (madeNode icons apps) (movedNode fs) fs' ∧
      ∀ n f, fileMoves categories fs n = some f → fs (inFolder f n) = none := by
  have hnothing (hnone : ∀ n, fileMoves categories fs n = none) :
      Arranged fs (fileMoves categories fs) (madeNode icons apps) (movedNode fs) fs ∧
        ∀ n f, fileMoves categories fs n = some f → fs (inFolder f n) = none := by
    rw [show fileMoves categories fs = fun _ => none from funext hnone]
    exact ⟨.nothing _ _ _, nofun⟩
  unfold categorize at h
  split at h
  · next hc =>
    obtain rfl := Except.ok.inj h
    refine hnothing fun n => ?_
    unfold fileMoves
    rw [hc]
    exact ite_self _
  split at h
  · exact nomatch h
  split at h
  · next hdir =>
    obtain rfl := Except.ok.inj h
    refine hnothing fun n => Option.eq_none_iff_forall_ne_some.2 fun f hf => ?_
    obtain ⟨ha, hk⟩ := happs n f hf
    exact hdir (by rw [ha]; exact isDir_some.2 hk)
  rename_i hdir
  cases ha : fs applications with
  | none =>
    rw [ha] at hdir
    exact absurd nofun hdir
  | some apps' =>
    have hstart : Moving categories icons apps' fs [] fs := ⟨.nothing _ _ _, nofun, nofun⟩
    have hmem {n : Text} : n ∈ sorted (children paths fs) ↔ (fs (entry n)).isSome = true := by
      unfold sorted
      rw [mem_insertionSort, mem_children hpaths]
    have hsorted : (sorted (children paths fs)).Nodup := ((perm_insertionSort _ _).nodup_iff).2 (children_nodup hnodup fs)
    have hloop := hstart.loop ha hsorted (fun _ _ => nofun) (fun n hn => hmem.1 hn) h
    have hall : seenMoves (fileMoves categories fs) (((sorted (children paths fs)).map entry).reverse ++ []) = fileMoves categories fs := by
      funext n
      unfold seenMoves
      split
      · rfl
      rename_i hn
      refine (Option.eq_none_iff_forall_ne_some.2 fun f hf => hn ?_).symm
      obtain ⟨-, target, mode, attrs, he⟩ := fileMoves_some hf
      rw [append_nil, mem_reverse]
      exact mem_map_of_mem (hmem.2 (by rw [he]; rfl))
    have harranged := hloop.arranged
    have hfree := hloop.free
    rw [hall] at harranged hfree
    refine ⟨⟨harranged.kept, fun x n hn => ?_, harranged.gone, harranged.moved, harranged.other⟩, hfree⟩
    rw [← Option.some.inj (ha.symm.trans (happs n x hn).1)]
    exact harranged.made x n hn

/-! ## One value and the other -/

theorem copyHaikuAttributes_append : ∀ {src dst : List Attr}, (src.map Attr.name).Nodup →
    (∀ a ∈ src, ∀ b ∈ dst, b.name ≠ a.name) → copyHaikuAttributes src dst = dst ++ src
  | [], dst, _, _ => (append_nil dst).symm
  | a :: src, dst, hnodup, hne => by
    obtain ⟨ha, hnodup⟩ := nodup_cons.1 hnodup
    show copyHaikuAttributes src (setAttr dst a) = dst ++ a :: src
    unfold setAttr
    rw [filter_eq_self.2 fun b hb => decide_eq_true (hne a mem_cons_self b hb), copyHaikuAttributes_append hnodup]
    · rw [append_assoc, singleton_append]
    · intro c hc b hb
      rcases mem_append.1 hb with hb | hb
      · exact hne c (mem_cons_of_mem _ hc) b hb
      · rw [mem_singleton.1 hb]
        exact fun he => ha (he ▸ mem_map_of_mem hc)

theorem copyHaikuAttributes_nil {src : List Attr} (h : (src.map Attr.name).Nodup) : copyHaikuAttributes src [] = src :=
  copyHaikuAttributes_append h fun _ _ _ hb => nomatch hb

theorem linkText_down (target : Text) : linkText ("-> ".toList ++ target) = "-> ".toList ++ linkDown target := by
  unfold linkText linkDown
  have hpre : "-> ".toList <+: "-> ".toList ++ target := prefix_append _ _
  have hroot : "-> /".toList <+: "-> ".toList ++ target ↔ target.head? = some '/' := by
    show "-> ".toList ++ ['/'] <+: "-> ".toList ++ target ↔ _
    rw [prefix_append_right_inj]
    cases target with
    | nil => simp
    | cons c target => simp [eq_comm]
  by_cases h : target.head? = some '/'
  · rw [if_neg fun hc => hc.2 (hroot.2 h), if_pos h]
  · rw [if_pos ⟨hpre, fun hc => h (hroot.1 hc)⟩, if_neg h]
    rfl

theorem sorted_eq {α : Type} [LinearOrder α] {l m : List α} : sorted l = sorted m ↔ l.Perm m := by
  unfold sorted
  refine ⟨fun h => (perm_insertionSort _ l).symm.trans (h ▸ perm_insertionSort _ m), fun h => ?_⟩
  exact ((perm_insertionSort _ l).trans (h.trans (perm_insertionSort _ m).symm)).eq_of_sortedLE
    sortedLE_insertionSort sortedLE_insertionSort

/-- **A made folder is shown as expected**, unless it has an icon twice. -/
theorem made_eq (tool : Tool) {icons : List (Text × List UInt8)} {apps : Node} (hdir : apps.kind = .dir)
    (hnodup : (apps.attrs.map Attr.name).Nodup) (folder : Text) :
    tool.value (madeNode icons apps folder) = listMade icons (tool.value apps) folder ↔
      ((icons.lookup folder).isSome = true → ∀ a ∈ apps.attrs, a.name ≠ "BEOS:ICON".toList) := by
  obtain ⟨kind, mode, attrs⟩ := apps
  obtain rfl : kind = .dir := hdir
  have hlines : tool.value (madeNode icons ⟨.dir, mode, attrs⟩ folder) = listMade icons (tool.value ⟨.dir, mode, attrs⟩) folder ↔
      sorted ((withIcon icons folder attrs).map tool.line) = withIconLine icons folder (sorted (attrs.map tool.line)) := by
    unfold madeNode listMade Tool.value
    dsimp only
    rw [copyHaikuAttributes_nil hnodup]
    simp only [Value.mk.injEq, true_and]
  rw [hlines]
  unfold withIcon withIconLine
  cases hi : icons.lookup folder with
  | none => exact ⟨nofun, fun _ => rfl⟩
  | some data =>
    dsimp only
    rw [sorted_eq]
    unfold setAttr
    constructor
    · intro hperm _ a ha hname
      have hlength := hperm.length_eq
      unfold sorted at hlength
      simp only [length_map, length_append, length_insertionSort, length_singleton] at hlength
      have hlt : (attrs.filter fun b => decide (b.name ≠ (icon data).name)).length < attrs.length :=
        length_filter_lt_length_iff_exists.2 ⟨a, ha, fun hne => of_decide_eq_true hne hname⟩
      omega
    · intro hno
      have hfilter : (attrs.filter fun b => decide (b.name ≠ (icon data).name)) = attrs :=
        filter_eq_self.2 fun b hb => decide_eq_true (hno rfl b hb)
      rw [hfilter, map_append, map_singleton, tool.line_icon]
      exact (perm_insertionSort _ _).symm.append_right _

/-! ## The claim -/

/-- The listing of what is written is the expected one, and the expected one is recognised by it. -/
def Agrees (tool : Tool) (p : Package) (w : Written) (categories : List (Text × Text)) (icons : List (Text × List UInt8))
    (blocked : List Text) : Prop :=
  ∃ d, categorizedListing (unblockedListing (tool.listing p) blocked) categories icons = some d ∧ SameButVendor (tool.written w) d ∧
    ∀ e, SameButVendor e d ↔ SameButVendor e (tool.written w)

/-- **No folder that has to be made for an entry has an icon in the map, or Applications has none of its own.** -/
def IconsApart (t : Tree) (categories : List (Text × Text)) (icons : List (Text × List UInt8)) (blocked : List Text) : Prop :=
  ∀ name folder, fileMoves categories (remaining blocked t.node) name = some folder →
    (fileMoves categories (remaining blocked t.node) folder = none → remaining blocked t.node (entry folder) = none) →
    (icons.lookup folder).isSome = true → ∀ apps, t.node applications = some apps → ∀ a ∈ apps.attrs, a.name ≠ "BEOS:ICON".toList

theorem SameButVendor.symm {a b : Attributes × Contents} (h : SameButVendor a b) : SameButVendor b a :=
  ⟨fun key hk => (h.1 key hk).symm, fun p hp => (h.2 p hp).symm⟩

theorem SameButVendor.trans {a b c : Attributes × Contents} (h : SameButVendor a b) (h' : SameButVendor b c) : SameButVendor a c :=
  ⟨fun key hk => (h.1 key hk).trans (h'.1 key hk), fun p hp => (h.2 p hp).trans (h'.2 p hp)⟩

theorem ok_of_bind {α β : Type} {r : Except Stop α} {f : α → Except Stop β} {b : β} (h : (r >>= f) = .ok b) :
    ∃ a, r = .ok a ∧ f a = .ok b := by
  cases r with
  | error e => exact nomatch (show Except.error e = Except.ok b from h)
  | ok a => exact ⟨a, rfl, h⟩

section
variable {p : Package} {vendor : Text} {categories : List (Text × Text)} {icons : List (Text × List UInt8)} {blocked : List Text} {w : Written}

theorem copyWithVendor_ok (h : copyWithVendor p vendor categories icons blocked = .ok w) :
    categorize p.tree.paths (remaining blocked p.tree.node) categories icons = .ok w.fs := by
  have hcategorize {fs : Files} {info : List Text} (hfs : fs = remaining blocked p.tree.node)
      (h : (categorize p.tree.paths fs categories icons >>= fun fs' => .ok ⟨info, fs'⟩) = Except.ok w) :
      categorize p.tree.paths (remaining blocked p.tree.node) categories icons = .ok w.fs := by
    obtain ⟨fs', hc, h⟩ := ok_of_bind h
    rw [← hfs, hc, ← Except.ok.inj h]
  unfold copyWithVendor at h
  dsimp only at h
  split at h
  · exact nomatch h
  split at h
  · next hb => exact hcategorize (by rw [hb, remaining_nil]) h
  · obtain ⟨fs, hr, h⟩ := ok_of_bind h
    exact hcategorize (removeBlockedApps_eq hr) h

end

/-! ## A package -/

def WellFormed (l : List (Path × Node)) : Prop :=
  (l.map Prod.fst).Nodup ∧ (∀ e ∈ l, e.1.dropLast ≠ [] → ∃ d ∈ l, d.1 = e.1.dropLast ∧ d.2.kind = .dir) ∧
    ∀ e ∈ l, (e.2.attrs.map Attr.name).Nodup

instance (l : List (Path × Node)) : Decidable (WellFormed l) := inferInstanceAs (Decidable (_ ∧ _ ∧ _))

def Tree.ofList (l : List (Path × Node)) (hl : WellFormed l) : Tree :=
  have hmem {p : Path} {n : Node} (h : l.lookup p = some n) : (p, n) ∈ l := by
    obtain ⟨pre, post, rfl, -⟩ := lookup_eq_some_iff.1 h
    exact mem_append_right _ mem_cons_self
  have hthere {e : Path × Node} (h : e ∈ l) : l.lookup e.1 = some e.2 := by
    obtain ⟨pre, post, rfl⟩ := append_of_mem h
    refine lookup_eq_some_iff.2 ⟨pre, post, rfl, fun d hd => ?_⟩
    have hnodup := hl.1
    rw [map_append, nodup_append] at hnodup
    rw [bne_iff_ne]
    exact (hnodup.2.2 _ (mem_map_of_mem hd) _ (mem_map_of_mem mem_cons_self)).symm
  { paths := l.map Prod.fst
    node := fun p => l.lookup p
    nodup := hl.1
    mem := fun {p} => by
      rw [mem_map, Option.isSome_iff_exists]
      exact ⟨fun ⟨e, he, hp⟩ => ⟨e.2, hp ▸ hthere he⟩, fun ⟨n, hn⟩ => ⟨(p, n), hmem hn, rfl⟩⟩
    parent := fun {p name} hp h => by
      obtain ⟨n, hn⟩ := Option.isSome_iff_exists.1 h
      obtain ⟨d, hd, hdp, hdir⟩ := hl.2.1 _ (hmem hn) (by rw [dropLast_concat]; exact hp)
      rw [dropLast_concat] at hdp
      exact ⟨d.2, hdp ▸ hthere hd, hdir⟩
    attrs := fun hn => hl.2.2 _ (hmem hn) }

def plainTool : Tool where
  attributes ls key :=
    match ls.filterMap fun l => if l.takeWhile (· ≠ '\t') = key then some (l.dropWhile (· ≠ '\t')) else none with
    | [] => none
    | vs => some vs
  line a := "<".toList ++ a.name ++ " ".toList ++ Nat.toDigits 10 a.data.length ++ " '".toList ++ a.type ++ "'>".toList
  bits := Nat.toDigits 8
  fileSize := Nat.toDigits 10
  linkSize := "0".toList
  line_icon data := by
    unfold iconLine icon
    simp only [append_assoc]
    rfl

def sillyInfo : List Text := ["name\t\tsilly".toList, "vendor\t\t\"port\"".toList]

/-- Two applications and their entries in the menu, and the attributes of the menu's directory. -/
def sillyEntries (attrs : List Attr) : List (Path × Node) :=
  [(packageInfo, { kind := .file 80 }), (appsDir, { kind := .dir }), (app "Silly".toList, { kind := .file 7 }),
    (app "Other".toList, { kind := .file 9 }), (["data".toList], { kind := .dir }), (["data".toList, "deskbar".toList], { kind := .dir }),
    (menu, { kind := .dir }), (applications, { kind := .dir, mode := 493, attrs := attrs }),
    (entry "Other".toList, { kind := .link "../../../../apps/Other".toList }),
    (entry "Silly".toList, { kind := .link "../../../../apps/Silly".toList })]

def silly (attrs : List Attr) (h : WellFormed (sillyEntries attrs)) : Package := ⟨sillyInfo, .ofList (sillyEntries attrs) h⟩

def sillyFolders : List (Text × Text) := [("Silly".toList, "Games".toList)]
def sillyIcons : List (Text × List UInt8) := [("Games".toList, [1, 2])]

def sillyCopy (attrs : List Attr) (h : WellFormed (sillyEntries attrs)) : Except Stop Written :=
  copyWithVendor (silly attrs h) "prose".toList sillyFolders sillyIcons ["Other".toList]

theorem silly_wellFormed : WellFormed (sillyEntries []) := by decide

theorem sillyIcon_wellFormed : WellFormed (sillyEntries [icon [9]]) := by decide

theorem ok_of_toOption {α : Type} {r : Except Stop α} {a : α} (h : r.toOption = some a) : r = .ok a := by
  cases r with
  | error e => exact nomatch h
  | ok b => rw [Option.some.inj (show some b = some a from h)]

theorem sillyInfo_vendor {key : Text} (h : key ≠ "vendor".toList) :
    plainTool.attributes ["name\t\tsilly".toList, "vendor\t\t\"prose\"".toList] key = plainTool.attributes sillyInfo key := by
  have hvendor : "vendor".toList ≠ key := h.symm
  unfold plainTool sillyInfo
  dsimp only
  rw [filterMap_cons, filterMap_cons, filterMap_cons, filterMap_cons]
  rw [show "vendor\t\t\"prose\"".toList.takeWhile (· ≠ '\t') = "vendor".toList by decide,
    show "vendor\t\t\"port\"".toList.takeWhile (· ≠ '\t') = "vendor".toList by decide, if_neg hvendor, if_neg hvendor]

end LocalPackages
end Prose
