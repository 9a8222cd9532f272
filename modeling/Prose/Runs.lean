import Mathlib.Data.List.Basic
/-!
# Runs — a machine and its runs

A machine takes an action in a state, or has no outcome there.  `Along P` says of a run that `P` holds of every action it
comes to and of the state it meets there, and what such an action keeps, the run keeps.
-/
namespace Runs

variable {σ α : Type*} (step : σ → α → Option σ)

def run (s : σ) (as : List α) : Option σ := as.foldlM step s

/-- `P` all the way. -/
def Along (P : σ → α → Prop) : σ → List α → Prop
  | _, []      => True
  | s, a :: as => P s a ∧ ∀ s' ∈ step s a, Along P s' as

instance decidableAlong (P : σ → α → Prop) [∀ s a, Decidable (P s a)] : ∀ (s : σ) (as : List α), Decidable (Along step P s as)
  | _, []      => isTrue trivial
  | s, a :: as =>
    have := fun s' => decidableAlong P s' as
    inferInstanceAs (Decidable (P s a ∧ ∀ s' ∈ step s a, Along step P s' as))

variable {step}

theorem run_cons (s : σ) (a : α) (as : List α) : run step s (a :: as) = (step s a).bind (fun s' => run step s' as) :=
  List.foldlM_cons

theorem run_append (s : σ) (as bs : List α) :
    run step s (as ++ bs) = (run step s as).bind (fun s' => run step s' bs) :=
  List.foldlM_append

/-- **All the way is after every part of the way.** -/
theorem along_iff {P : σ → α → Prop} : ∀ {as : List α} {s : σ},
    Along step P s as ↔ ∀ pre a post s', as = pre ++ a :: post → run step s pre = some s' → P s' a
  | [], s => ⟨fun _ pre a post s' h _ => by simp at h, fun _ => trivial⟩
  | a :: as, s => by
    refine ⟨fun h pre b post s' he hr => ?_, fun h => ⟨h [] a as s rfl rfl, fun s' hs => ?_⟩⟩
    · cases pre with
      | nil =>
        obtain ⟨rfl, rfl⟩ := List.cons.inj he
        rw [← Option.some.inj hr]
        exact h.1
      | cons c pre =>
        obtain ⟨rfl, has⟩ := List.cons.inj he
        rw [run_cons, Option.bind_eq_some_iff] at hr
        obtain ⟨t, ht, hr⟩ := hr
        exact along_iff.1 (h.2 t ht) pre b post s' has hr
    · refine along_iff.2 (fun pre b post t he hr => h (a :: pre) b post t (by rw [he]; rfl) ?_)
      rw [run_cons, Option.mem_def.1 hs]
      exact hr

theorem along_states {P : σ → Prop} : ∀ {as : List α} {s : σ},
    (∀ pre post s', as = pre ++ post → run step s pre = some s' → P s') ↔
      P s ∧ Along step (fun s a => ∀ s' ∈ step s a, P s') s as
  | [], s => by
    refine ⟨fun h => ⟨h [] [] s rfl rfl, trivial⟩, fun h pre post s' he hr => ?_⟩
    obtain ⟨rfl, -⟩ := List.append_eq_nil_iff.1 he.symm
    rw [← Option.some.inj hr]
    exact h.1
  | a :: as, s => by
    refine ⟨fun h => ⟨h [] (a :: as) s rfl rfl, fun s' hs => h [a] as s' rfl ?_, fun s' hs => ?_⟩, fun h => ?_⟩
    · rw [run_cons, Option.mem_def.1 hs]
      rfl
    · refine (along_states.1 (fun pre post t he hr => h (a :: pre) post t (by rw [he]; rfl) ?_)).2
      rw [run_cons, Option.mem_def.1 hs]
      exact hr
    · obtain ⟨h0, hstep, hrest⟩ := h
      intro pre post t he hr
      cases pre with
      | nil =>
        rw [← Option.some.inj hr]
        exact h0
      | cons b pre =>
        obtain ⟨rfl, has⟩ := List.cons.inj he
        rw [run_cons, Option.bind_eq_some_iff] at hr
        obtain ⟨s', hs, hr⟩ := hr
        exact along_states.2 ⟨hstep s' hs, hrest s' hs⟩ pre post t has hr

section
variable {I : σ → Prop} {P Q : σ → α → Prop} (hstep : ∀ s a s', I s → Q s a → step s a = some s' → I s')
include hstep

theorem run_inv : ∀ {as : List α} {s s' : σ}, I s → Along step Q s as → run step s as = some s' → I s'
  | [], s, s', h, _, hr => by
    rw [← Option.some.inj hr]
    exact h
  | a :: as, s, s', h, hq, hr => by
    rw [run_cons, Option.bind_eq_some_iff] at hr
    obtain ⟨t, ht, hr⟩ := hr
    exact run_inv (hstep s a t h hq.1 ht) (hq.2 t ht) hr

/-- Two properties of an action that are one while an invariant holds are one all the way. -/
theorem along_congr (h : ∀ s a, I s → (P s a ↔ Q s a)) : ∀ {as : List α} {s : σ}, I s →
    (Along step P s as ↔ Along step Q s as)
  | [], _, _ => Iff.rfl
  | a :: as, s, hs => by
    unfold Along
    rw [h s a hs]
    refine and_congr_right (fun hq => forall_congr' fun s' => forall_congr' fun ht => ?_)
    exact along_congr h (hstep s a s' hs hq ht)

theorem along_of_inv (h : ∀ s a, I s → Q s a → P s a) : ∀ {as : List α} {s : σ}, I s → Along step Q s as → Along step P s as
  | [], _, _, _ => trivial
  | a :: _, s, hs, hq => ⟨h s a hs hq.1, fun s' ht => along_of_inv h (hstep s a s' hs hq.1 ht) (hq.2 s' ht)⟩

end

end Runs
