import Prose.ChipAbc
import Mathlib.Algebra.Order.Ring.Int
import Mathlib.Tactic.Linarith
/-!
# ChipLengths — numbers and durations, and when they trap

What the notation writes, in numbers without a bound, and what has to fit for `readInt`, `readDuration` and `adjust` to
come to it.
-/
namespace Prose
namespace Chip

open Trapping List

/-! ## Numbers -/

def number (ds : List Nat) : Nat := ds.foldl (fun n d => n * 10 + d) 0

theorem le_foldl_number : ∀ (ds : List Nat) (n : Nat), n ≤ ds.foldl (fun n d => n * 10 + d) n
  | [], n      => le_refl n
  | d :: ds, n => le_trans (by omega) (le_foldl_number ds (n * 10 + d))

theorem foldlM_digits : ∀ {ds : List Nat} {n : Nat}, Fits n →
    ds.foldlM (fun (n : Int) (d : Nat) => do add (← mul n 10) d) (n : Int) =
      when (Fits (ds.foldl (fun n d => n * 10 + d) n : Nat)) ((ds.foldl (fun n d => n * 10 + d) n : Nat) : Int)
  | [], n, h => (when_of h).symm
  | d :: ds, n, h => by
    rw [foldlM_cons, foldl_cons]
    have hle := le_foldl_number ds (n * 10 + d)
    by_cases hd : Fits ((n * 10 + d : Nat) : Int)
    · have h10 : mul n 10 = some ((n * 10 : Nat) : Int) := mul_eq_some.2 ⟨by unfold Fits at *; omega, by omega⟩
      have hadd : add ((n * 10 : Nat) : Int) d = some ((n * 10 + d : Nat) : Int) :=
        add_eq_some.2 ⟨by rw [← Int.natCast_add]; exact hd, by omega⟩
      rw [h10]
      exact (congrArg (· >>= _) hadd).trans (foldlM_digits hd)
    have hbig : ¬ Fits ((ds.foldl (fun n d => n * 10 + d) (n * 10 + d) : Nat) : Int) := fun hf => hd (by
      unfold Fits at *
      omega)
    unfold when
    rw [if_neg hbig]
    have hnone : (do add (← mul n 10) d) = none := by
      unfold mul fit
      rw [when_bind]
      split
      · exact if_neg (fun hf => hd (by rw [Int.natCast_add, Int.natCast_mul]; exact hf))
      · rfl
    rw [hnone]
    rfl

section

variable (u : Unicode)

/-- The number in front of `cs`. -/
def numberAt (cs : Text) : Nat := number (digitRun u cs)

/-- What `readInt` makes of it. -/
def numeral (cs : Text) : Option Int := if digitRun u cs = [] then none else some (numberAt u cs)

theorem readInt_eq (cs : Text) : readInt u cs = when (Fits (numberAt u cs)) (numeral u cs, afterDigits u cs) := by
  unfold readInt
  have := @foldlM_digits (digitRun u cs) 0 ⟨by omega, by omega⟩
  rw [Int.natCast_zero] at this
  rw [this, when_bind]
  rfl

theorem numeral_nonneg {cs : Text} {n : Int} (h : numeral u cs = some n) : 0 ≤ n := by
  unfold numeral at h
  split at h
  · exact nomatch h
  · rw [← Option.some.inj h]
    exact Int.natCast_nonneg _

theorem length_afterDigits : ∀ cs : Text, (afterDigits u cs).length ≤ cs.length
  | [] => le_refl _
  | c :: s => by
    have := length_afterDigits s
    unfold afterDigits
    split
    · split <;> simp only [length_cons] <;> omega
    · exact le_refl _

/-! ## Slashes -/

def factorAt (cs : Text) : Nat := ((numeral u cs).map (fun n => (max 1 n).toNat)).getD 2

theorem one_le_factorAt (cs : Text) : 1 ≤ factorAt u cs := by
  unfold factorAt
  cases numeral u cs with
  | none => decide
  | some n => exact (by show 1 ≤ (max 1 n).toNat; omega)

/-- The product of the divisors of a length, and what is behind its slashes. -/
def divisor : Nat → Text → Nat × Text
  | 0, cs                       => (1, cs)
  | fuel + 1, .ascii '/' :: cs  =>
    (factorAt u cs * (divisor fuel (afterDigits u cs)).1, (divisor fuel (afterDigits u cs)).2)
  | _ + 1, cs                   => (1, cs)

theorem slash_cases (cs : Text) : (∃ s, cs = .ascii '/' :: s) ∨ cs.head? ≠ some (.ascii '/') := by
  cases cs with
  | nil => exact Or.inr (by simp)
  | cons c s =>
    by_cases hc : c = .ascii '/'
    · exact Or.inl ⟨s, by rw [hc]⟩
    · exact Or.inr (by simpa using hc)

theorem divisor_of_ne {fuel : Nat} {cs : Text} (h : cs.head? ≠ some (.ascii '/')) : divisor u fuel cs = (1, cs) := by
  unfold divisor
  split
  · rfl
  · exact absurd rfl h
  · rfl

theorem one_le_divisor : ∀ (fuel : Nat) (cs : Text), 1 ≤ (divisor u fuel cs).1
  | 0, _ => le_refl _
  | fuel + 1, cs => by
    rcases slash_cases cs with ⟨s, rfl⟩ | h
    · exact Nat.mul_le_mul (one_le_factorAt u s) (one_le_divisor fuel (afterDigits u s))
    · rw [divisor_of_ne u h]

theorem slash_step (cs : Text) (div : Nat) (hdiv : 1 ≤ div) (f : Int → Text → Option (Int × Text)) :
    (do let (n, rest) ← readInt u cs
        let d ← mul div ((n.map (max 1)).getD 2)
        f d rest) =
      if Fits ((div * factorAt u cs : Nat) : Int) then f ((div * factorAt u cs : Nat)) (afterDigits u cs) else none := by
  have hfac : ((numeral u cs).map (max 1)).getD 2 = (factorAt u cs : Int) := by
    unfold factorAt
    cases numeral u cs with
    | none => rfl
    | some n =>
      show max 1 n = (((max 1 n).toNat : Nat) : Int)
      omega
  have hnum : Fits ((div * factorAt u cs : Nat) : Int) → Fits (numberAt u cs) := by
    intro h
    have hle : numberAt u cs ≤ factorAt u cs ∨ digitRun u cs = [] := by
      unfold factorAt numeral
      split
      · exact Or.inr ‹_›
      · left
        show numberAt u cs ≤ (max 1 (numberAt u cs : Int)).toNat
        omega
    have hmul : factorAt u cs ≤ div * factorAt u cs := Nat.le_mul_of_pos_left _ hdiv
    rcases hle with hle | hnil
    · unfold Fits at *
      omega
    · unfold numberAt
      rw [hnil]
      exact ⟨by decide, by decide⟩
  rw [readInt_eq, when_bind]
  by_cases hp : Fits ((div * factorAt u cs : Nat) : Int)
  · rw [if_pos (hnum hp), if_pos hp]
    dsimp only
    rw [hfac]
    have hm : mul div (factorAt u cs) = some ((div * factorAt u cs : Nat) : Int) :=
      mul_eq_some.2 ⟨by rw [← Int.natCast_mul]; exact hp, by rw [Int.natCast_mul]⟩
    rw [hm]
    rfl
  · rw [if_neg hp]
    split
    · dsimp only
      rw [hfac]
      have hm : mul div (factorAt u cs) = none := if_neg (fun hf => hp (by rw [Int.natCast_mul]; exact hf))
      rw [hm]
      rfl
    · rfl

/-- **The divisors trap exactly if their product does not fit.** -/
theorem slashes_eq : ∀ {fuel : Nat} {cs : Text} {div : Nat}, cs.length < fuel → 1 ≤ div → Fits div →
    slashes u fuel div cs = when (Fits ((div * (divisor u fuel cs).1 : Nat) : Int))
      (((div * (divisor u fuel cs).1 : Nat) : Int), (divisor u fuel cs).2)
  | 0, cs, _, h, _, _ => absurd h (Nat.not_lt_zero _)
  | fuel + 1, cs, div, h, hdiv, hfit => by
    rcases slash_cases cs with ⟨s, rfl⟩ | hne
    · have hlen : (afterDigits u s).length < fuel := by
        have := length_afterDigits u s
        simp only [length_cons] at h
        omega
      have hone := one_le_divisor u fuel (afterDigits u s)
      refine (slash_step u s div hdiv (slashes u fuel)).trans ?_
      show _ = when (Fits ((div * (factorAt u s * (divisor u fuel (afterDigits u s)).1) : Nat) : Int))
        (((div * (factorAt u s * (divisor u fuel (afterDigits u s)).1) : Nat) : Int), (divisor u fuel (afterDigits u s)).2)
      rw [← Nat.mul_assoc]
      by_cases hp : Fits ((div * factorAt u s : Nat) : Int)
      · rw [if_pos hp]
        exact slashes_eq hlen (Nat.mul_le_mul hdiv (one_le_factorAt u s)) hp
      rw [if_neg hp]
      refine (if_neg (fun hf => hp ?_)).symm
      have hle : div * factorAt u s ≤ div * factorAt u s * (divisor u fuel (afterDigits u s)).1 :=
        Nat.le_mul_of_pos_right _ hone
      unfold Fits at *
      omega
    · rw [divisor_of_ne u hne, Nat.mul_one]
      unfold slashes
      split
      · exact absurd rfl hne
      · exact (when_of hfit).symm

/-! ## Durations -/

/-- What the length at `cs` multiplies by. -/
def multiplierAt (cs : Text) : Int := (numeral u cs).getD 1

def divisorAt (cs : Text) : Nat × Text := divisor u ((afterDigits u cs).length + 1) (afterDigits u cs)

/-- What is behind the length at `cs`. -/
def afterLength (cs : Text) : Text := (divisorAt u cs).2

/-- The ticks the length at `cs` comes to; nil where none is written. -/
def lengthAt (cs : Text) (unit : Int) : Option Int :=
  if numeral u cs = none ∧ (afterDigits u cs).head? ≠ some (.ascii '/') then none
  else some (max 1 ((unit * multiplierAt u cs).tdiv (divisorAt u cs).1))

def LengthOk (cs : Text) (unit : Int) : Prop :=
  Fits (numberAt u cs) ∧ Fits ((divisorAt u cs).1 : Int) ∧ Fits (unit * multiplierAt u cs)

instance (cs : Text) (unit : Int) : Decidable (LengthOk u cs unit) := inferInstanceAs (Decidable (_ ∧ _ ∧ _))

theorem readDuration_eq (cs : Text) {unit : Int} (hunit : Fits unit) :
    readDuration u cs unit = when (LengthOk u cs unit) (lengthAt u cs unit, afterLength u cs) := by
  unfold readDuration
  rw [readInt_eq]
  have hslash := slashes_eq u (Nat.lt_succ_self (afterDigits u cs).length) (le_refl 1) ⟨by decide, by decide⟩
  rw [Nat.one_mul, Int.natCast_one] at hslash
  have hone := one_le_divisor u ((afterDigits u cs).length + 1) (afterDigits u cs)
  refine when_bind_when _ ?_
  dsimp only
  rw [hslash]
  refine when_bind_when _ ?_
  dsimp only
  by_cases hn : numeral u cs = none ∧ (afterDigits u cs).head? ≠ some (.ascii '/')
  · rw [if_pos hn]
    unfold lengthAt multiplierAt
    rw [if_pos hn, hn.1]
    refine (when_of ?_).symm
    show Fits (unit * 1)
    rw [mul_one]
    exact hunit
  · rw [if_neg hn]
    unfold lengthAt
    rw [if_neg hn]
    exact mul_quot_map (by exact_mod_cast hone) (fun x => (some (max 1 x), afterLength u cs))

def ticksAt (cs : Text) (unit : Int) : Int := (lengthAt u cs unit).getD unit

theorem fits_lengthAt {cs : Text} {unit n : Int} (h : LengthOk u cs unit) (hn : lengthAt u cs unit = some n) :
    Fits n ∧ 1 ≤ n := by
  unfold lengthAt at hn
  split at hn
  · exact nomatch hn
  rw [← Option.some.inj hn]
  have := h.2.2.tdiv (b := (divisorAt u cs).1) (by exact_mod_cast one_le_divisor u _ _)
  unfold Fits at *
  omega

end

/-! ## Units -/

def unitValue (v : ABCVoice) : Int := max 1 ((1920 * v.unitNum).tdiv v.unitDen)

def barValue (v : ABCVoice) : Int := (1920 * v.meterNum).tdiv (max 1 v.meterDen)

theorem barTicks_eq (v : ABCVoice) : barTicks v = when (Fits (1920 * v.meterNum)) (barValue v) :=
  @mul_quot kTicksPerWhole v.meterNum (max 1 v.meterDen) (by omega)

theorem fits_barValue {v : ABCVoice} (hf : Fits (1920 * v.meterNum)) : Fits (barValue v) := hf.tdiv (by omega)

/-! ## Tuplets and broken rhythm -/

theorem halves_eq : ∀ n : Nat, halves n = when (n ≤ 61) (2 ^ (n + 1))
  | 0     => rfl
  | n + 1 => by
    unfold halves
    rw [halves_eq n, when_bind]
    by_cases hn : n ≤ 60
    · have hle : (2 : Int) ^ (n + 1 + 1) ≤ 2 ^ 62 := pow_le_pow_right₀ (by decide) (by omega)
      have hpos : (0 : Int) < 2 ^ (n + 1 + 1) := Int.pow_pos (by decide)
      rw [if_pos (by omega), when_of (by omega)]
      exact mul_eq_some.2 ⟨by rw [← pow_succ]; exact ⟨by omega, by omega⟩, (pow_succ _ _).symm⟩
    unfold when
    rw [if_neg (show ¬ n + 1 ≤ 61 by omega)]
    split
    · have h61 : n = 61 := by omega
      rw [h61]
      decide
    · rfl

theorem fits_twice {n : Nat} (h : n ≤ 61) : Fits (2 * 2 ^ (n + 1)) ↔ n + 1 ≤ 61 := by
  rw [show (2 : Int) * 2 ^ (n + 1) = 2 ^ (n + 2) from by rw [pow_succ _ (n + 1), mul_comm]]
  constructor
  · intro hf
    by_contra hn
    have h61 : n = 61 := by omega
    rw [h61] at hf
    revert hf
    decide
  · intro hn
    have hle : (2 : Int) ^ (n + 2) ≤ 2 ^ 62 := pow_le_pow_right₀ (by decide) (by omega)
    have hpos : (0 : Int) < 2 ^ (n + 2) := Int.pow_pos (by decide)
    exact ⟨by omega, by omega⟩

def longer (ticks : Int) (marks : Nat) : Int := (ticks * (2 * 2 ^ marks - 1)).tdiv (2 ^ marks)

def shorter (ticks : Int) (marks : Nat) : Int := ticks.tdiv (2 ^ marks)

theorem lengthened_eq {ticks : Int} {n : Nat} (h : n ≤ 61) : lengthened ticks (2 ^ (n + 1)) =
    when (n + 1 ≤ 61 ∧ Fits (ticks * (2 * 2 ^ (n + 1) - 1))) (longer ticks (n + 1)) := by
  have hpos : (0 : Int) < 2 ^ (n + 1) := Int.pow_pos (by decide)
  unfold lengthened
  by_cases hn : n + 1 ≤ 61
  · have htwice := (fits_twice h).2 hn
    rw [mul_eq_some.2 ⟨htwice, rfl⟩]
    show (do let y ← sub (2 * 2 ^ (n + 1)) 1; let x ← mul ticks y; quot x (2 ^ (n + 1))) = _
    rw [sub_eq_some.2 ⟨⟨by unfold Fits at htwice; omega, by unfold Fits at htwice; omega⟩, rfl⟩]
    refine (mul_quot hpos).trans ?_
    unfold when
    simp only [hn, true_and]
    rfl
  · have htwice : mul 2 (2 ^ (n + 1)) = none := if_neg (fun hf => hn ((fits_twice h).1 hf))
    rw [htwice]
    exact (if_neg (fun hf => hn hf.1)).symm

def tupleted (ticks : Int) (ctx : MusicCtx) : Int :=
  if 0 < ctx.tupletLeft then (ticks * ctx.tupletNum).tdiv ctx.tupletDen else ticks

def marks (ctx : MusicCtx) : Nat := ctx.broken.natAbs

def unbroken (ticks : Int) (ctx : MusicCtx) : Int :=
  if ctx.broken = 0 then ticks else if 0 < ctx.broken then shorter ticks (marks ctx) else longer ticks (marks ctx)

def afterTuplet (ctx : MusicCtx) : MusicCtx :=
  { ctx with tupletLeft := if 0 < ctx.tupletLeft then ctx.tupletLeft - 1 else ctx.tupletLeft }

/-- What `adjust` makes of a length. -/
def adjusted (ticks : Int) (ctx : MusicCtx) : Int := max 1 (unbroken (tupleted ticks ctx) ctx)

def afterAdjust (ctx : MusicCtx) : MusicCtx := { afterTuplet ctx with broken := 0 }

/-- No tuplet of no notes runs, and what it makes of the length fits. -/
def TupletOk (ticks : Int) (ctx : MusicCtx) : Prop :=
  0 < ctx.tupletLeft → ctx.tupletDen ≠ 0 ∧ Fits (ticks * ctx.tupletNum)

/-- No more marks in front than there are powers of two, and what lengthens fits. -/
def BrokenOk (ticks : Int) (ctx : MusicCtx) : Prop :=
  marks ctx ≤ 62 ∧ (ctx.broken < 0 → marks ctx ≤ 61 ∧ Fits (ticks * (2 * 2 ^ marks ctx - 1)))

instance (ticks : Int) (ctx : MusicCtx) : Decidable (TupletOk ticks ctx) := inferInstanceAs (Decidable (_ → _))

instance (ticks : Int) (ctx : MusicCtx) : Decidable (BrokenOk ticks ctx) := inferInstanceAs (Decidable (_ ∧ (_ → _)))

/-- **What has to hold for a length to be adjusted.** -/
def AdjustOk (ticks : Int) (ctx : MusicCtx) : Prop := TupletOk ticks ctx ∧ BrokenOk (tupleted ticks ctx) ctx

instance (ticks : Int) (ctx : MusicCtx) : Decidable (AdjustOk ticks ctx) := inferInstanceAs (Decidable (_ ∧ _))

theorem fits_tupleted {ticks : Int} {ctx : MusicCtx} (hden : 0 ≤ ctx.tupletDen) (ht : Fits ticks)
    (h : TupletOk ticks ctx) : Fits (tupleted ticks ctx) := by
  unfold tupleted
  split
  · rename_i hleft
    obtain ⟨hne, hf⟩ := h hleft
    exact hf.tdiv (by omega)
  · exact ht

theorem adjustTuplet_eq {ticks : Int} {ctx : MusicCtx} (hden : 0 ≤ ctx.tupletDen) :
    adjustTuplet ticks ctx = when (TupletOk ticks ctx) (tupleted ticks ctx, afterTuplet ctx) := by
  unfold adjustTuplet tupleted afterTuplet
  by_cases hleft : 0 < ctx.tupletLeft
  · rw [if_pos hleft, if_pos hleft, if_pos hleft]
    by_cases hz : ctx.tupletDen = 0
    · rw [when_not (fun h => (h hleft).1 hz), hz]
      cases mul ticks ctx.tupletNum <;> rfl
    · refine (mul_quot_map (by omega) _).trans (eq_when (fun h => when_of (h hleft).2) (fun h => ?_))
      exact when_not (fun hf => h (fun _ => ⟨hz, hf⟩))
  · rw [if_neg hleft, if_neg hleft, if_neg hleft]
    exact (when_of (fun h => absurd h hleft)).symm

theorem adjustBroken_eq {ticks : Int} {ctx : MusicCtx} (ht : Fits ticks) :
    adjustBroken ticks ctx = when (BrokenOk ticks ctx) (unbroken ticks ctx, { ctx with broken := 0 }) := by
  unfold adjustBroken unbroken
  by_cases hb : ctx.broken = 0
  · rw [if_pos hb, if_pos hb, when_of ⟨by unfold marks; rw [hb]; decide, fun h => absurd h (by omega)⟩]
    congr 2
    rw [← hb]
  have hmarks : (max |ctx.broken| 1).toNat - 1 + 1 = marks ctx := by
    have : |ctx.broken| = (ctx.broken.natAbs : Int) := Int.abs_eq_natAbs _
    unfold marks
    omega
  rw [if_neg hb, if_neg hb, halves_eq, when_bind, hmarks]
  refine eq_when (fun h => ?_) (fun h => ?_)
  · have h62 := h.1
    rw [if_pos (by omega)]
    by_cases hpos : 0 < ctx.broken
    · rw [if_pos hpos, if_pos hpos, quot_of_pos ht (Int.pow_pos (by decide))]
      rfl
    · rw [if_neg hpos, if_neg hpos, ← hmarks, lengthened_eq (by omega), hmarks, when_of (h.2 (by omega))]
      rfl
  · split
    · rename_i h61
      split
      · exact absurd ⟨by omega, fun hneg => absurd hneg (by omega)⟩ h
      · rw [← hmarks, lengthened_eq h61, hmarks, when_not (fun hlong => h ⟨by omega, fun _ => hlong⟩)]
        rfl
    · rfl

theorem adjust_eq {ticks : Int} {ctx : MusicCtx} (hden : 0 ≤ ctx.tupletDen) (ht : Fits ticks) :
    adjust ticks ctx = when (AdjustOk ticks ctx) (adjusted ticks ctx, afterAdjust ctx) := by
  unfold adjust
  rw [adjustTuplet_eq hden]
  refine eq_when (fun h => ?_) (fun h => ?_)
  · rw [when_of h.1]
    show (adjustBroken (tupleted ticks ctx) (afterTuplet ctx) >>= fun p => some (max 1 p.1, p.2)) = _
    rw [adjustBroken_eq (fits_tupleted hden ht h.1), when_of (show BrokenOk _ (afterTuplet ctx) from h.2)]
    rfl
  · rw [when_bind]
    split
    · rename_i hok
      show (adjustBroken (tupleted ticks ctx) (afterTuplet ctx) >>= fun p => some (max 1 p.1, p.2)) = _
      rw [adjustBroken_eq (fits_tupleted hden ht hok), when_not (show ¬ BrokenOk _ (afterTuplet ctx) from fun hb => h ⟨hok, hb⟩)]
      rfl
    · rfl

theorem one_le_adjusted (ticks : Int) (ctx : MusicCtx) : 1 ≤ adjusted ticks ctx := le_max_left _ _

end Chip
end Prose
