import Prose.PackageListing
/-!
# PackageArranged — the menu with its entries in folders

What is where once some entries have gone into folders, said of files and of the lines of a listing alike; both loops come to it.
-/
namespace Prose
namespace LocalPackages

theorem entry_injective : Function.Injective entry := fun _ _ h => (List.cons.inj (List.append_cancel_left h)).1

theorem inFolder_inj {f f' n n' : Text} (h : inFolder f n = inFolder f' n') : f = f' ∧ n = n' := by
  obtain ⟨hf, hn⟩ := List.cons.inj (List.append_cancel_left h)
  exact ⟨hf, (List.cons.inj hn).1⟩

theorem entry_ne_inFolder (x f n : Text) : entry x ≠ inFolder f n := fun h =>
  absurd (List.append_cancel_left h) (by simp)

theorem applications_ne_entry (x : Text) : applications ≠ entry x := fun h =>
  absurd (congrArg List.length h) (by simp [entry])

theorem applications_ne_inFolder (f n : Text) : applications ≠ inFolder f n := fun h =>
  absurd (congrArg List.length h) (by simp [inFolder])

theorem inApplications_entry (name : Text) : inApplications (entry name) = some name := rfl

theorem eq_entry {p : Path} {name : Text} (h : inApplications p = some name) : p = entry name := by
  unfold inApplications at h
  split at h
  · next a b c d n =>
    obtain ⟨he, h⟩ := Option.ite_none_right_eq_some.1 h
    obtain rfl := Option.some.inj h
    show [a, b, c, d] ++ [n] = applications ++ [n]
    rw [he]
  · exact nomatch h

/-- **What is where.**  `moves` says which entries of the menu go into which folders. -/
structure Arranged {β : Type} (at_ : Path → Option β) (moves : Text → Option Text) (made moved : Text → β) (result : Path → Option β) :
    Prop where
  kept : ∀ x v, moves x = none → at_ (entry x) = some v → result (entry x) = some v
  made : ∀ x n, moves n = some x → (moves x = none → at_ (entry x) = none) → result (entry x) = some (made x)
  gone : ∀ x, (moves x = none → at_ (entry x) = none) → (∀ n, moves n ≠ some x) → result (entry x) = none
  moved : ∀ f n, moves n = some f → result (inFolder f n) = some (moved n)
  other : ∀ p, (∀ x, p ≠ entry x) → (∀ f n, p = inFolder f n → moves n ≠ some f) → result p = at_ p

namespace Arranged

variable {β γ : Type} {at_ : Path → Option β} {moves : Text → Option Text} {made moved : Text → β} {result : Path → Option β}

theorem nothing (at_ : Path → Option β) (made moved : Text → β) : Arranged at_ (fun _ => none) made moved at_ :=
  ⟨fun _ _ _ h => h, nofun, fun _ h _ => h rfl, nofun, fun _ _ _ => rfl⟩

theorem root (h : Arranged at_ moves made moved result) : result applications = at_ applications :=
  h.other _ applications_ne_entry fun f n he => absurd he (applications_ne_inFolder f n)

theorem map (h : Arranged at_ moves made moved result) (g : β → γ) :
    Arranged (fun p => (at_ p).map g) moves (g ∘ made) (g ∘ moved) (fun p => (result p).map g) where
  kept x v hx ha := by
    obtain ⟨w, hw, rfl⟩ := Option.map_eq_some_iff.1 ha
    rw [h.kept x w hx hw]
    rfl
  made x n hn ha := by
    rw [h.made x n hn fun hx => Option.map_eq_none_iff.1 (ha hx)]
    rfl
  gone x ha hn := by
    rw [h.gone x (fun hx => Option.map_eq_none_iff.1 (ha hx)) hn]
    rfl
  moved f n hn := by
    rw [h.moved f n hn]
    rfl
  other p hx hf := by
    rw [h.other p hx hf]

/-- **There is one result**, where the folders that are made are the same. -/
theorem ext {made' moved' : Text → β} {result' : Path → Option β} (h : Arranged at_ moves made moved result)
    (h' : Arranged at_ moves made' moved' result') (hmoved : ∀ n f, moves n = some f → moved n = moved' n)
    (hmade : ∀ n x, moves n = some x → (moves x = none → at_ (entry x) = none) → made x = made' x) : result = result' := by
  funext p
  by_cases hp : ∃ x, p = entry x
  · obtain ⟨x, rfl⟩ := hp
    by_cases ha : moves x = none → at_ (entry x) = none
    · by_cases hn : ∃ n, moves n = some x
      · obtain ⟨n, hn⟩ := hn
        rw [h.made x n hn ha, h'.made x n hn ha, hmade n x hn ha]
      · have hn : ∀ n, moves n ≠ some x := fun n he => hn ⟨n, he⟩
        rw [h.gone x ha hn, h'.gone x ha hn]
    · obtain ⟨hx, ha⟩ := Classical.not_imp.1 ha
      obtain ⟨v, hv⟩ := Option.ne_none_iff_exists'.1 ha
      rw [h.kept x v hx hv, h'.kept x v hx hv]
  · have hx : ∀ x, p ≠ entry x := fun x he => hp ⟨x, he⟩
    by_cases hf : ∃ f n, p = inFolder f n ∧ moves n = some f
    · obtain ⟨f, n, rfl, hn⟩ := hf
      rw [h.moved f n hn, h'.moved f n hn, hmoved n f hn]
    · have hf : ∀ f n, p = inFolder f n → moves n ≠ some f := fun f n he hn => hf ⟨f, n, he, hn⟩
      rw [h.other p hx hf, h'.other p hx hf]

theorem keep (h : Arranged at_ moves made moved result) {p : Path} {v : β} (hentry : ∀ x, p = entry x → moves x = none)
    (hfolder : ∀ f n, p = inFolder f n → moves n ≠ some f) :
    Arranged (Function.update at_ p (some v)) moves made moved (Function.update result p (some v)) where
  kept x w hx ha := by
    by_cases hp : entry x = p
    · rw [hp, Function.update_self] at ha ⊢
      exact ha
    · rw [Function.update_of_ne hp] at ha ⊢
      exact h.kept x w hx ha
  made x n hn ha := by
    have hp : entry x ≠ p := fun hp => by
      have ha := ha (hentry x hp.symm)
      rw [hp, Function.update_self] at ha
      exact nomatch ha
    rw [Function.update_of_ne hp] at ha ⊢
    exact h.made x n hn ha
  gone x ha hn := by
    have hp : entry x ≠ p := fun hp => by
      have ha := ha (hentry x hp.symm)
      rw [hp, Function.update_self] at ha
      exact nomatch ha
    rw [Function.update_of_ne hp] at ha ⊢
    exact h.gone x ha hn
  moved f n hn := by
    rw [Function.update_of_ne fun hp => hfolder f n hp.symm hn]
    exact h.moved f n hn
  other q hx hf := by
    by_cases hp : q = p
    · rw [hp, Function.update_self, Function.update_self]
    · rw [Function.update_of_ne hp, Function.update_of_ne hp]
      exact h.other q hx hf

theorem forget (h : Arranged at_ moves made moved result) {name : Text} (hname : ∀ n, moves n ≠ some name) :
    Arranged (Function.update at_ (entry name) none) moves made moved (Function.update result (entry name) none) where
  kept x w hx ha := by
    by_cases hp : entry x = entry name
    · rw [hp, Function.update_self] at ha
      exact nomatch ha
    · rw [Function.update_of_ne hp] at ha ⊢
      exact h.kept x w hx ha
  made x n hn ha := by
    have hp : entry x ≠ entry name := fun hp => hname n (entry_injective hp ▸ hn)
    rw [Function.update_of_ne hp] at ha ⊢
    exact h.made x n hn ha
  gone x ha hn := by
    by_cases hp : entry x = entry name
    · rw [hp, Function.update_self]
    · rw [Function.update_of_ne hp] at ha ⊢
      exact h.gone x ha hn
  moved f n hn := by
    rw [Function.update_of_ne (entry_ne_inFolder name f n).symm]
    exact h.moved f n hn
  other q hx hf := by
    rw [Function.update_of_ne (hx name), Function.update_of_ne (hx name)]
    exact h.other q hx hf

def folded (made : Text → β) (result : Path → Option β) (folder : Text) : Path → Option β :=
  if (result (entry folder)).isSome then result else Function.update result (entry folder) (some (made folder))

theorem folded_of_ne {p : Path} {folder : Text} (hp : p ≠ entry folder) : folded made result folder p = result p := by
  unfold folded
  split
  · rfl
  · exact Function.update_of_ne hp _ _

/-- **One more entry goes into a folder**, that was not there before. -/
theorem move (h : Arranged at_ moves made moved result) {name folder : Text} {v : β} (hm : moves name = none)
    (hat : at_ (entry name) = none) :
    Arranged (Function.update at_ (entry name) (some v)) (Function.update moves name (some folder)) made moved
      (Function.update (folded made result folder) (inFolder folder name) (some (moved name))) := by
  have hold {x n : Text} (hn : n ≠ name) : Function.update moves name (some folder) n = some x ↔ moves n = some x := by
    rw [Function.update_of_ne hn]
  -- what is not there, or goes away, was not there before or went
  have hgone {x : Text} (ha : Function.update moves name (some folder) x = none →
      Function.update at_ (entry name) (some v) (entry x) = none) : moves x = none → at_ (entry x) = none := fun hx => by
    by_cases hxn : x = name
    · rw [hxn]
      exact hat
    · have ha := ha (by rw [Function.update_of_ne hxn]; exact hx)
      rwa [Function.update_of_ne fun he => hxn (entry_injective he)] at ha
  refine ⟨fun x w hx ha => ?_, fun x n hn ha => ?_, fun x ha hn => ?_, fun f n hn => ?_, fun q hx hf => ?_⟩
  · have hxn : x ≠ name := fun he => by
      rw [he, Function.update_self] at hx
      exact nomatch hx
    rw [Function.update_of_ne hxn] at hx
    rw [Function.update_of_ne fun he => hxn (entry_injective he)] at ha
    rw [Function.update_of_ne (entry_ne_inFolder x folder name)]
    have hr := h.kept x w hx ha
    by_cases hxf : x = folder
    · unfold folded
      rw [if_pos (by rw [← hxf, hr]; rfl)]
      exact hr
    · rw [folded_of_ne fun he => hxf (entry_injective he)]
      exact hr
  · rw [Function.update_of_ne (entry_ne_inFolder x folder name)]
    have hback := hgone ha
    by_cases hxf : x = folder
    · subst hxf
      unfold folded
      by_cases hn : ∃ n, moves n = some x
      · obtain ⟨n, hn⟩ := hn
        have hr := h.made x n hn hback
        rw [if_pos (by rw [hr]; rfl)]
        exact hr
      · have hr := h.gone x hback fun n he => hn ⟨n, he⟩
        rw [if_neg (by rw [hr]; exact nofun), Function.update_self]
    · have hnn : n ≠ name := fun he => by
        rw [he, Function.update_self] at hn
        exact hxf (Option.some.inj hn).symm
      rw [folded_of_ne fun he => hxf (entry_injective he)]
      exact h.made x n ((hold hnn).1 hn) hback
  · have hxf : x ≠ folder := fun he => hn name (by rw [Function.update_self, he])
    rw [Function.update_of_ne (entry_ne_inFolder x folder name), folded_of_ne fun he => hxf (entry_injective he)]
    refine h.gone x (hgone ha) fun n he => ?_
    by_cases hnn : n = name
    · rw [hnn, hm] at he
      exact nomatch he
    · exact hn n ((hold hnn).2 he)
  · by_cases hnn : n = name
    · subst hnn
      rw [Function.update_self] at hn
      cases hn
      exact Function.update_self _ _ _
    · rw [Function.update_of_ne fun he => hnn (inFolder_inj he).2, folded_of_ne (entry_ne_inFolder folder f n).symm]
      exact h.moved f n ((hold hnn).1 hn)
  · have hq : q ≠ inFolder folder name := fun he => hf folder name he (Function.update_self _ _ _)
    rw [Function.update_of_ne hq, folded_of_ne (hx folder), Function.update_of_ne (hx name)]
    refine h.other q hx fun f n he hn => ?_
    by_cases hnn : n = name
    · rw [hnn, hm] at hn
      exact nomatch hn
    · exact hf f n he ((hold hnn).2 hn)

end Arranged

end LocalPackages
end Prose
