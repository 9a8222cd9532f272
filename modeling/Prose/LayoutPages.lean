import Mathlib.Tactic.Linarith
import Prose.Binary
import Prose.LayoutLines
/-!
# LayoutPages — lines onto pages

`AssignLinesToPages`.  Whatever the heights are, the pages share the lines out among them; where no paragraph asks for a negative distance
and the margins leave a page no taller than it is, a page holds what it can and the lines go down.
-/
namespace Prose
namespace Writer

open List

variable {F : Type} [Points F] [DecidableLT F]

/-! ## The model -/

def lineHeight (l : Line F) : F := if 0 < l.height then l.height else pt 14

/-- `before`: no distance above a page's first line. -/
def spaceAbove (ps : List Para) (used : F) (l : Line F) : F :=
  if l.startPara = 0 ∧ 0 < used then pt (paraAt ps l.para).format.spaceBefore else pt 0

/-- How much of the page is used behind a line, and behind its paragraph if it is the last one. -/
def usedBelow (ps : List Para) (used : F) (l : Line F) : F :=
  let used := used + spaceAbove ps used l + lineHeight l
  if l.last then used + pt (paraAt ps l.para).format.spaceAfter else used

abbrev Full (ps : List Para) (setup : PWPageSetup F) (used : F) (l : Line F) : Prop :=
  0 < used ∧ setup.textHeight < used + spaceAbove ps used l + lineHeight l

/-- The inner loop: the lines a page takes, with their places, and the lines that are left. -/
def placeLines (ps : List Para) (setup : PWPageSetup F) (pageTop : F) : F → List (Line F) → List (Line F) × List (Line F)
  | _, []         => ([], [])
  | used, l :: ls =>
    if Full ps setup used l then ([], l :: ls)
    else
      ({ l with y := pageTop + setup.marginTop + (used + spaceAbove ps used l) } ::
        (placeLines ps setup pageTop (usedBelow ps used l) ls).1, (placeLines ps setup pageTop (usedBelow ps used l) ls).2)

/-- The lines that have their places, those that have not, the pages so far and the top of the next one. -/
structure Paging (F : Type) where
  done : List (Line F) := []
  todo : List (Line F)
  pages : List PageSpan := []
  pageTop : F

/-- A turn of the outer loop.  A page that would stay empty takes a line all the same. -/
def pageStep (ps : List Para) (setup : PWPageSetup F) (s : Paging F) : Option (Paging F ⊕ List (Line F) × List PageSpan) :=
  match s.todo with
  | []      => some (.inr (s.done, s.pages))
  | l :: ls =>
    let fit := placeLines ps setup s.pageTop 0 (l :: ls)
    let page := if fit.1.isEmpty then ([{ l with y := s.pageTop + setup.marginTop }], ls) else fit
    some (.inl {
      done := s.done ++ page.1
      todo := page.2
      pages := s.pages ++ [⟨s.done.length, page.1.length⟩]
      pageTop := s.pageTop + (setup.pageHeight + kPageGap) })

def assignLinesToPages (fuel : Nat) (L : PWLayout F) (ps : List Para) : Option (PWLayout F) :=
  (Loops.loop (pageStep ps L.fSetup) fuel { todo := L.fLines, pageTop := 0 }).map fun (lines, pages) =>
    { L with fLines := lines, fPages := if pages.isEmpty then [⟨0, 0⟩] else pages }

/-! ## Every line has its page -/

def Placed (ls ls' : List (Line F)) : Prop := List.Forall₂ (fun l l' => ∃ y, l' = { l with y := y }) ls ls'

def Spans : Nat → List PageSpan → Nat → Prop
  | a, [], b      => a = b
  | a, s :: ss, b => s.firstLine = a ∧ 0 < s.lineCount ∧ Spans (a + s.lineCount) ss b

theorem Spans.snoc : ∀ {ss : List PageSpan} {a b n : Nat}, Spans a ss b → 0 < n → Spans a (ss ++ [⟨b, n⟩]) (b + n)
  | [], a, b, n, h, hn => by
    have h : a = b := h
    subst h
    exact ⟨rfl, hn, rfl⟩
  | s :: ss, a, b, n, ⟨h1, h2, h⟩, hn => ⟨h1, h2, h.snoc hn⟩

theorem Spans.le : ∀ {ss : List PageSpan} {a b : Nat}, Spans a ss b → a ≤ b
  | [], _, _, h => Nat.le_of_eq h
  | _ :: _, _, _, ⟨_, _, h⟩ => Nat.le_trans (Nat.le_add_right _ _) h.le

theorem placeLines_placed (ps : List Para) (setup : PWPageSetup F) (pageTop : F) : ∀ (used : F) (ls : List (Line F)),
    ∃ fit, ls = fit ++ (placeLines ps setup pageTop used ls).2 ∧ Placed fit (placeLines ps setup pageTop used ls).1
  | used, []      => ⟨[], rfl, List.Forall₂.nil⟩
  | used, l :: ls => by
    unfold placeLines
    by_cases hfull : Full ps setup used l
    · rw [if_pos hfull]
      exact ⟨[], rfl, List.Forall₂.nil⟩
    · rw [if_neg hfull]
      obtain ⟨fit, hls, hfit⟩ := placeLines_placed ps setup pageTop (usedBelow ps used l) ls
      exact ⟨l :: fit, congrArg (l :: ·) hls, List.Forall₂.cons ⟨_, rfl⟩ hfit⟩

/-- In the middle of the pages: the lines in front have their places, and the pages share them out. -/
structure Paged (lines : List (Line F)) (s : Paging F) : Prop where
  split : ∃ fit, lines = fit ++ s.todo ∧ Placed fit s.done
  spans : Spans 0 s.pages s.done.length

omit [Points F] [DecidableLT F] in
theorem Paged.start (lines : List (Line F)) (top : F) : Paged lines { todo := lines, pageTop := top } :=
  ⟨⟨[], rfl, List.Forall₂.nil⟩, rfl⟩

theorem Paged.step (ps : List Para) (setup : PWPageSetup F) {lines : List (Line F)} {s : Paging F} (h : Paged lines s) :
    (∃ t, pageStep ps setup s = some (.inl t) ∧ Paged lines t ∧ t.todo.length < s.todo.length) ∨
      ∃ r, pageStep ps setup s = some (.inr r) ∧ Placed lines r.1 ∧ Spans 0 r.2 lines.length := by
  obtain ⟨done, todo, pages, pageTop⟩ := s
  obtain ⟨⟨front, hlines, hfront⟩, hspans⟩ := h
  dsimp only at hlines hfront hspans
  unfold pageStep
  cases todo with
  | nil =>
    rw [append_nil] at hlines
    subst hlines
    rw [← hfront.length_eq] at hspans
    exact .inr ⟨_, rfl, hfront, hspans⟩
  | cons l ls =>
    refine .inl ⟨_, rfl, ?_⟩
    -- the page has a line, and it and what is left are what there was
    have hpage : ∃ fit page rest, (if (placeLines ps setup pageTop 0 (l :: ls)).1.isEmpty then
        ([{ l with y := pageTop + setup.marginTop }], ls) else placeLines ps setup pageTop 0 (l :: ls)) = (page, rest) ∧
        l :: ls = fit ++ rest ∧ Placed fit page ∧ 0 < page.length := by
      split
      · exact ⟨[l], _, _, rfl, rfl, List.Forall₂.cons ⟨_, rfl⟩ List.Forall₂.nil, Nat.one_pos⟩
      · rename_i hne
        obtain ⟨fit, hls, hfit⟩ := placeLines_placed ps setup pageTop 0 (l :: ls)
        exact ⟨fit, _, _, rfl, hls, hfit, length_pos_iff.2 fun hnil => hne (List.isEmpty_iff.2 hnil)⟩
    obtain ⟨fit, page, rest, hpage, hls, hfit, hpos⟩ := hpage
    dsimp only
    rw [hpage]
    have hlength := congrArg List.length hls
    rw [length_append, length_cons] at hlength
    have := hfit.length_eq
    refine ⟨⟨⟨front ++ fit, ?_, rel_append hfront hfit⟩, ?_⟩, by dsimp only [length_cons]; omega⟩
    · dsimp only
      rw [hlines, hls, append_assoc]
    · dsimp only
      rw [length_append]
      exact hspans.snoc hpos

def PagesOf (n : Nat) (pages : List PageSpan) : Prop := if n = 0 then pages = [⟨0, 0⟩] else Spans 0 pages n

theorem assign_total (L : PWLayout F) (ps : List Para) {fuel : Nat} (hfuel : L.fLines.length < fuel) :
    ∃ L', assignLinesToPages fuel L ps = some L' ∧ Placed L.fLines L'.fLines ∧ PagesOf L.fLines.length L'.fPages := by
  obtain ⟨⟨lines, pages⟩, hloop, hplaced, hspans⟩ := Loops.loop_total (n := fuel) (s := { todo := L.fLines, pageTop := 0 })
    (fun s (hs : Paged L.fLines s) => hs.step ps L.fSetup) hfuel (Paged.start _ _)
  refine ⟨_, by rw [assignLinesToPages, hloop, Option.map_some], hplaced, ?_⟩
  dsimp only at hspans ⊢
  unfold PagesOf
  split
  · rename_i hzero
    rw [hzero] at hspans
    cases pages with
    | nil => rfl
    | cons s ss =>
      obtain ⟨h1, h2, h⟩ := hspans
      have := h.le
      omega
  · rename_i hne
    rw [if_neg]
    · exact hspans
    · intro hempty
      rw [List.isEmpty_iff.1 hempty] at hspans
      exact hne hspans.symm

/-- However many turns there are: if the loop comes to its end, the lines are the same ones with new places. -/
theorem assign_of {fuel : Nat} {L L' : PWLayout F} {ps : List Para} (h : assignLinesToPages fuel L ps = some L') :
    ∃ lines pages, L' = { L with fLines := lines, fPages := pages } ∧ Placed L.fLines lines := by
  obtain ⟨⟨lines, pages⟩, hloop, rfl⟩ := Option.map_eq_some_iff.1 h
  refine ⟨_, _, rfl, ?_⟩
  obtain ⟨s, hs, hend⟩ := Loops.loop_inv (fun s t (hs : Paged L.fLines s) hst => by
    obtain ⟨u, hu, hpaged, -⟩ | ⟨r, hr, -⟩ := hs.step ps L.fSetup
    · rw [hu] at hst
      rwa [← Sum.inl.inj (Option.some.inj hst)]
    · rw [hr] at hst
      exact absurd (Option.some.inj hst) Sum.inr_ne_inl) (Paged.start _ _) hloop
  obtain ⟨u, hu, -⟩ | ⟨r, hr, hplaced, -⟩ := hs.step ps L.fSetup
  · rw [hu] at hend
    exact absurd (Option.some.inj hend) Sum.inl_ne_inr
  · rw [hr] at hend
    rwa [Sum.inr.inj (Option.some.inj hend)] at hplaced

theorem Spans.bound : ∀ {ss : List PageSpan} {a b : Nat}, Spans a ss b → ∀ s ∈ ss, s.firstLine + s.lineCount ≤ b
  | t :: ss, a, b, ⟨h1, _, h⟩, s, hs => by
    rcases mem_cons.1 hs with rfl | hs
    · rw [h1]
      exact h.le
    · exact h.bound s hs

/-! ## What a page holds -/

/-- No paragraph asks for a negative distance, and what the margins leave of a page is no taller than the page and the gap below. -/
structure Fair (ps : List Para) (setup : PWPageSetup ℚ) (lines : List (Line ℚ)) : Prop where
  above : ∀ l ∈ lines, 0 ≤ (paraAt ps l.para).format.spaceBefore
  below : ∀ l ∈ lines, 0 ≤ (paraAt ps l.para).format.spaceAfter
  page : 0 < setup.pageHeight + 18
  margins : -18 ≤ setup.marginTop + setup.marginBottom

/-- What a line keeps clear above itself when it is not the first one of its page. -/
def above (ps : List Para) (l : Line ℚ) : ℚ := if l.startPara = 0 then (paraAt ps l.para).format.spaceBefore else 0

def below (ps : List Para) (l : Line ℚ) : ℚ := if l.last then (paraAt ps l.para).format.spaceAfter else 0

def content (ps : List Para) : List (Line ℚ) → ℚ
  | []           => 0
  | [l]          => lineHeight l
  | l :: m :: ls => lineHeight l + below ps l + above ps m + content ps (m :: ls)

theorem lineHeight_pos (l : Line ℚ) : 0 < lineHeight l := by
  unfold lineHeight
  split
  · assumption
  · change (0 : ℚ) < 14
    norm_num

section
variable {ps : List Para} {setup : PWPageSetup ℚ} {lines : List (Line ℚ)} (hfair : Fair ps setup lines)
include hfair

theorem Fair.above_nonneg {l : Line ℚ} (hl : l ∈ lines) : 0 ≤ Writer.above ps l := by
  unfold Writer.above
  split
  · exact hfair.above l hl
  · exact le_refl 0

theorem Fair.below_nonneg {l : Line ℚ} (hl : l ∈ lines) : 0 ≤ Writer.below ps l := by
  unfold Writer.below
  split
  · exact hfair.below l hl
  · exact le_refl 0

omit hfair in
theorem usedBelow_eq (ps : List Para) (used : ℚ) (l : Line ℚ) :
    usedBelow ps used l = used + spaceAbove ps used l + lineHeight l + below ps l := by
  unfold usedBelow below
  dsimp only
  split
  · rfl
  · exact (add_zero _).symm

omit hfair in
theorem spaceAbove_eq (ps : List Para) {used : ℚ} (h : 0 < used) (l : Line ℚ) : spaceAbove ps used l = above ps l := by
  unfold spaceAbove above
  by_cases hl : l.startPara = 0
  · rw [if_pos ⟨hl, h⟩, if_pos hl]
    rfl
  · rw [if_neg fun hboth => hl hboth.1, if_neg hl]
    rfl

omit hfair in
theorem spaceAbove_first (l : Line ℚ) : spaceAbove ps (0 : ℚ) l = 0 := if_neg fun h => lt_irrefl _ h.2

/-- Lines behind one that is on the page already: they go down from `used` on, and with it they fit. -/
structure FitBelow (ps : List Para) (setup : PWPageSetup ℚ) (top used : ℚ) (placed : List (Line ℚ)) : Prop where
  from' : ∀ l ∈ placed, top + used ≤ l.y
  within : ∀ l ∈ placed, l.y < top + setup.textHeight
  down : placed.Pairwise (fun a b => a.y < b.y)
  fits : ∀ l rest, placed = l :: rest → used + Writer.above ps l + content ps placed ≤ setup.textHeight

omit hfair in
theorem FitBelow.nil (top used : ℚ) : FitBelow ps setup top used [] :=
  ⟨fun l hl => absurd hl not_mem_nil, fun l hl => absurd hl not_mem_nil, List.Pairwise.nil, fun l rest h => by cases h⟩

theorem placeLines_below (pageTop : ℚ) : ∀ (used : ℚ) (ls : List (Line ℚ)), 0 < used → (∀ l ∈ ls, l ∈ lines) →
    FitBelow ps setup (pageTop + setup.marginTop) used (placeLines ps setup pageTop used ls).1
  | used, [], _, _ => by
    unfold placeLines
    exact FitBelow.nil _ _
  | used, l :: ls, hused, hmem => by
    unfold placeLines
    by_cases hfull : Full ps setup used l
    · rw [if_pos hfull]
      exact FitBelow.nil _ _
    rw [if_neg hfull]
    have hl := hmem l mem_cons_self
    have habove := hfair.above_nonneg hl
    have hbelow := hfair.below_nonneg hl
    have hheight := lineHeight_pos l
    have hspace := spaceAbove_eq ps hused l
    have hfit : used + Writer.above ps l + lineHeight l ≤ setup.textHeight := by
      rw [← hspace]
      exact not_lt.1 fun h => hfull ⟨hused, h⟩
    have hnext := usedBelow_eq ps used l
    rw [hspace] at hnext ⊢
    have ih := placeLines_below pageTop (usedBelow ps used l) ls (by rw [hnext]; linarith)
      fun m hm => hmem m (mem_cons_of_mem _ hm)
    generalize (placeLines ps setup pageTop (usedBelow ps used l) ls).1 = rest at ih
    have hy : ({ l with y := pageTop + setup.marginTop + (used + Writer.above ps l) } : Line ℚ).y =
        pageTop + setup.marginTop + (used + Writer.above ps l) := rfl
    generalize hl' : ({ l with y := pageTop + setup.marginTop + (used + Writer.above ps l) } : Line ℚ) = l' at hy
    have hheight' : lineHeight l' = lineHeight l := by rw [← hl']; rfl
    have habove' : Writer.above ps l' = Writer.above ps l := by rw [← hl']; rfl
    have hbelow' : Writer.below ps l' = Writer.below ps l := by rw [← hl']; rfl
    refine ⟨fun m hm => ?_, fun m hm => ?_, pairwise_cons.2 ⟨fun m hm => ?_, ih.down⟩, fun m rest' hm => ?_⟩
    · rcases mem_cons.1 hm with rfl | hm
      · rw [hy]
        linarith
      · have := ih.from' m hm
        rw [hnext] at this
        linarith
    · rcases mem_cons.1 hm with rfl | hm
      · rw [hy]
        linarith
      · exact ih.within m hm
    · have := ih.from' m hm
      rw [hnext] at this
      rw [hy]
      linarith
    · obtain ⟨rfl, rfl⟩ := List.cons.inj hm
      cases rest with
      | nil =>
        change used + Writer.above ps l' + lineHeight l' ≤ setup.textHeight
        rw [habove', hheight']
        exact hfit
      | cons k rest =>
        have := ih.fits k rest rfl
        rw [hnext] at this
        change used + Writer.above ps l' + (lineHeight l' + Writer.below ps l' + Writer.above ps k + content ps (k :: rest)) ≤ _
        rw [habove', hheight', hbelow']
        linarith

structure PageFits (ps : List Para) (setup : PWPageSetup ℚ) (pageTop : ℚ) (page : List (Line ℚ)) : Prop where
  from' : ∀ l ∈ page, pageTop + setup.marginTop ≤ l.y
  within : ∀ l ∈ page, l.y < pageTop + (setup.pageHeight + 18) + setup.marginTop
  down : page.Pairwise (fun a b => a.y < b.y)
  fits : 1 < page.length → content ps page ≤ setup.textHeight

theorem page_fits (pageTop : ℚ) {l : Line ℚ} {ls : List (Line ℚ)} (hmem : ∀ m ∈ l :: ls, m ∈ lines) :
    (placeLines ps setup pageTop 0 (l :: ls)).1 ≠ [] ∧ PageFits ps setup pageTop (placeLines ps setup pageTop 0 (l :: ls)).1 := by
  have hl := hmem l mem_cons_self
  have hbelow := hfair.below_nonneg hl
  have hheight := lineHeight_pos l
  have htext : setup.textHeight = setup.pageHeight - setup.marginTop - setup.marginBottom := rfl
  have hmargins := hfair.margins
  have hpage := hfair.page
  have hnext := usedBelow_eq ps 0 l
  unfold placeLines
  rw [if_neg fun h : Full ps setup 0 l => lt_irrefl _ h.1, spaceAbove_first]
  rw [spaceAbove_first] at hnext
  have hrest := placeLines_below hfair pageTop (usedBelow ps 0 l) ls (by rw [hnext]; linarith)
    fun m hm => hmem m (mem_cons_of_mem _ hm)
  generalize (placeLines ps setup pageTop (usedBelow ps 0 l) ls).1 = rest at hrest
  have hy : ({ l with y := pageTop + setup.marginTop + (0 + 0) } : Line ℚ).y = pageTop + setup.marginTop + (0 + 0) := rfl
  generalize hl' : ({ l with y := pageTop + setup.marginTop + (0 + 0) } : Line ℚ) = l' at hy
  have hheight' : lineHeight l' = lineHeight l := by rw [← hl']; rfl
  have hbelow' : Writer.below ps l' = Writer.below ps l := by rw [← hl']; rfl
  refine ⟨cons_ne_nil _ _, fun m hm => ?_, fun m hm => ?_, pairwise_cons.2 ⟨fun m hm => ?_, hrest.down⟩, fun hmore => ?_⟩
  · rcases mem_cons.1 hm with rfl | hm
    · rw [hy]
      linarith
    · have := hrest.from' m hm
      rw [hnext] at this
      linarith
  · rcases mem_cons.1 hm with rfl | hm
    · rw [hy]
      linarith
    · have := hrest.within m hm
      linarith
  · have := hrest.from' m hm
    rw [hnext] at this
    rw [hy]
    linarith
  · cases rest with
    | nil => exact absurd hmore (lt_irrefl 1)
    | cons k rest =>
      have := hrest.fits k rest rfl
      rw [hnext] at this
      change lineHeight l' + Writer.below ps l' + Writer.above ps k + content ps (k :: rest) ≤ _
      rw [hheight', hbelow']
      linarith

structure PagedWell (ps : List Para) (setup : PWPageSetup ℚ) (lines : List (Line ℚ)) (s : Paging ℚ) : Prop where
  paged : Paged lines s
  mem : ∀ l ∈ s.todo, l ∈ lines
  above : ∀ l ∈ s.done, l.y < s.pageTop + setup.marginTop
  down : s.done.Pairwise (fun a b => a.y < b.y)
  fits : ∀ span ∈ s.pages, 1 < span.lineCount → content ps ((s.done.drop span.firstLine).take span.lineCount) ≤ setup.textHeight

theorem PagedWell.step {s t : Paging ℚ} (h : PagedWell ps setup lines s) (hs : pageStep ps setup s = some (.inl t)) :
    PagedWell ps setup lines t := by
  have hpaged : Paged lines t := by
    obtain ⟨t', ht', hpaged, -⟩ | ⟨r, hr, -⟩ := h.paged.step ps setup
    · rw [hs] at ht'
      rwa [Sum.inl.inj (Option.some.inj ht')]
    · rw [hs] at hr
      cases hr
  obtain ⟨done, todo, pages, pageTop⟩ := s
  obtain ⟨hpaged', hmem, habove, hdown, hfits⟩ := h
  dsimp only at hmem habove hdown hfits
  have hbound := hpaged'.spans.bound
  dsimp only at hbound
  cases todo with
  | nil => cases hs
  | cons l ls =>
    obtain ⟨hne, hpage⟩ := page_fits hfair pageTop hmem
    obtain ⟨fit, hls, -⟩ := placeLines_placed ps setup pageTop 0 (l :: ls)
    unfold pageStep at hs
    dsimp only at hs
    rw [if_neg fun hempty => hne (List.isEmpty_iff.1 hempty)] at hs
    cases hs
    generalize placeLines ps setup pageTop 0 (l :: ls) = placed at hne hpage hls hpaged
    have hkGap : (kPageGap : ℚ) = 18 := rfl
    refine ⟨hpaged, fun m hm => hmem m ?_, fun m hm => ?_,
      pairwise_append.2 ⟨hdown, hpage.down, fun a ha b hb => ?_⟩, fun span hspan hmore => ?_⟩
    · rw [hls]
      exact mem_append_right _ hm
    · dsimp only
      rw [hkGap]
      rcases mem_append.1 hm with hm | hm
      · have := habove m hm
        have := hfair.page
        linarith
      · have := hpage.within m hm
        linarith
    · exact lt_of_lt_of_le (habove a ha) (hpage.from' b hb)
    · rcases mem_append.1 hspan with hspan | hspan
      · have hin := hbound span hspan
        rw [drop_append_of_le_length (by omega), take_append_of_le_length (by rw [length_drop]; omega)]
        exact hfits span hspan hmore
      rw [mem_singleton.1 hspan] at hmore ⊢
      dsimp only at hmore ⊢
      rw [drop_left, take_length]
      exact hpage.fits hmore

end

/-! ## The claim -/

/-- A line of paragraph `para`, its only one. -/
def lineAt (para : Nat) (height : ℚ) : Line ℚ :=
  { para := para, x := 0, y := 0, width := 0, height := height, baseline := 0, last := true }

def spaced (before after : ℚ) : Para := { runs := [], format := { spaceBefore := before, spaceAfter := after } }

def PagedAsClaimed (fuel : Nat) (setup : PWPageSetup ℚ) (lines : List (Line ℚ)) (ps : List Para) : Prop :=
  ∀ L' ∈ assignLinesToPages fuel { fSetup := setup, fLines := lines } ps,
    L'.fLines.Pairwise (fun a b => a.y < b.y) ∧ ∀ span ∈ L'.fPages, 1 < span.lineCount →
      content ps ((L'.fLines.drop span.firstLine).take span.lineCount) ≤ setup.textHeight

instance (fuel : Nat) (setup : PWPageSetup ℚ) (lines : List (Line ℚ)) (ps : List Para) :
    Decidable (PagedAsClaimed fuel setup lines ps) :=
  inferInstanceAs (Decidable (∀ L' ∈ assignLinesToPages fuel { fSetup := setup, fLines := lines } ps,
    L'.fLines.Pairwise (fun a b => a.y < b.y) ∧ ∀ span ∈ L'.fPages, 1 < span.lineCount →
      content ps ((L'.fLines.drop span.firstLine).take span.lineCount) ≤ setup.textHeight))

/-- A `float` as it is, apart from its smallest and its largest values. -/
structure Single where
  val : ℚ

instance : Points Single where
  zero := ⟨0⟩
  add a b := ⟨Binary.rounded 24 (a.val + b.val)⟩
  sub a b := ⟨Binary.rounded 24 (a.val - b.val)⟩
  mul a b := ⟨Binary.rounded 24 (a.val * b.val)⟩
  div a b := ⟨Binary.rounded 24 (a.val / b.val)⟩
  beq a b := a.val == b.val
  le a b := a.val ≤ b.val
  lt a b := a.val < b.val
  ofRat q := ⟨Binary.rounded 24 q⟩
  floor a := ⟨(⌊a.val⌋ : ℚ)⟩

instance : DecidableLT Single := fun a b => inferInstanceAs (Decidable (a.val < b.val))

def singleLine (height : ℚ) : Line Single :=
  { para := 0, x := ⟨0⟩, y := ⟨0⟩, width := ⟨0⟩, height := ⟨height⟩, baseline := ⟨0⟩, last := true }

/-- A page of a tall line, one of a millionth of a point, and one more. -/
def hairline : PWLayout Single :=
  { fSetup := ⟨⟨595⟩, ⟨842⟩, ⟨72⟩, ⟨72⟩, ⟨72⟩, ⟨72⟩⟩
    fLines := [singleLine 500, singleLine (1 / 2 ^ 20), singleLine 14] }

end Writer
end Prose
