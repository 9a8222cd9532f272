import Prose.ChipSteps
/-!
# ChipDurations — tuplets and broken rhythm against the clock

What a tuplet, and two notes with a mark of broken rhythm between them, take of a voice's time.  A line is read as a list
of events: its notes, each with the ticks it is written with, its tuplets and its marks.
-/
namespace Prose
namespace Chip

open Trapping

def Music.tick (m : Music) : Int := (m.reader.voiceOf m.reader.current).tick

def Music.held (m : Music) : Int := ((m.reader.tune.notes[m.ctx.lastNote.toNat]?).map Note.duration).getD 0

/-- What a note written with these ticks lasts next, but for the marks at it. -/
def Music.lasts (m : Music) (ticks : Int) : Int := max 1 (tupleted ticks m.ctx)

/-- What a line goes on with; a tuplet is written `(p:q`. -/
inductive Event
  | passed
  | note (ticks : Int)
  | tuplet (p q : Int)
  | mark (longer : Bool) (count : Nat)
  | other
  deriving DecidableEq

section

variable (u : Unicode)

def tupletEvent (cs : Text) : Event :=
  match numeral u cs, afterDigits u cs with
  | some p, .ascii ':' :: cs =>
    match numeral u cs with
    | some q => if (afterDigits u cs).head? = some (.ascii ':') then .other else .tuplet p q
    | none   => .other
  | _, _ => .other

def Music.event (m : Music) : Event :=
  match m.rest with
  | []      => .other
  | c :: cs =>
    match element u c cs with
    | .passed _              => .passed
    | .tie _                 => .passed
    | .broken longer count _ => .mark longer count
    | .tuplet rest           => tupletEvent u rest
    | .note _                =>
      match readNote u m.reader (c :: cs) with
      | some (some (_, r, rest)) => .note (ticksAt u rest (unitValue (r.voiceOf r.current)))
      | some none                => .passed
      | none                     => .other
    | _ => .other

/-- The line is read from one place to another with these events, and with what is passed between them. -/
inductive Reads : Music → List Event → Music → Prop
  | nil (m : Music) : Reads m [] m
  | pass {m m₁ m' : Music} {es : List Event} : m.event u = .passed → musicStep u m = some (.inl m₁) →
      Reads m₁ es m' → Reads m es m'
  | step {m m₁ m' : Music} {e : Event} {es : List Event} : m.event u = e → musicStep u m = some (.inl m₁) →
      Reads m₁ es m' → Reads m (e :: es) m'

inductive Reached : Music → Prop
  | line {ls : List Text} {r : Reader} (line : Text) : Runs.run (readLine u) {} ls = some r → Reached { reader := r, rest := line }
  | step {m m' : Music} : Reached m → musicStep u m = some (.inl m') → Reached m'

end

section

variable {u : Unicode}

theorem Reached.ok {m : Music} (h : Reached u m) : m.Ok := by
  induction h with
  | line line h =>
    exact ⟨readLines_ok u ok_start h, show (0 : Int) ≤ 1 by decide, fun hk => absurd (show (0 : Int) ≤ -1 from hk) (by decide)⟩
  | step _ h ih => exact musicStep_inl u ih h

/-! ## What is passed -/

structure Same (m m' : Music) : Prop where
  reader : m'.reader = m.reader
  ctx : m'.ctx = { m.ctx with pendingTie := m'.ctx.pendingTie }

namespace Same

variable {m m' : Music}

theorem refl (m : Music) : Same m m := ⟨rfl, rfl⟩

theorem trans {m'' : Music} (h : Same m m') (h' : Same m' m'') : Same m m'' :=
  ⟨h'.reader.trans h.reader, by rw [h'.ctx, h.ctx]⟩

theorem ok (h : Same m m') (hm : m.Ok) : m'.Ok := by
  refine ⟨h.reader ▸ hm.reader, ?_, ?_⟩
  · rw [h.ctx]
    exact hm.tupletDen
  · rw [h.ctx, h.reader]
    exact hm.reach

theorem tick (h : Same m m') : m'.tick = m.tick := by
  unfold Music.tick
  rw [h.reader]

theorem held (h : Same m m') : m'.held = m.held := by
  unfold Music.held
  rw [h.reader, h.ctx]

theorem lasts (h : Same m m') (ticks : Int) : m'.lasts ticks = m.lasts ticks := by
  unfold Music.lasts tupleted
  rw [h.ctx]

theorem adjusted (h : Same m m') (ticks : Int) : adjusted ticks m'.ctx = adjusted ticks m.ctx := by
  rw [h.ctx]
  rfl

end Same

theorem tupletEvent_cases (cs : Text) : tupletEvent u cs = .other ∨ ∃ p q, tupletEvent u cs = .tuplet p q := by
  unfold tupletEvent
  split
  · split
    · split
      · exact Or.inl rfl
      · exact Or.inr ⟨_, _, rfl⟩
    · exact Or.inl rfl
  · exact Or.inl rfl

theorem same_of_passed {m m' : Music} (he : m.event u = .passed) (h : musicStep u m = some (.inl m')) : Same m m' := by
  unfold Music.event at he
  unfold musicStep at h
  cases hrest : m.rest with
  | nil =>
    rw [hrest] at he
    exact nomatch he
  | cons c cs =>
    rw [hrest] at he h
    dsimp only at he h
    generalize element u c cs = e at he h
    cases e with
    | passed rest =>
      cases h
      exact ⟨rfl, rfl⟩
    | tie rest =>
      cases h
      exact ⟨rfl, rfl⟩
    | tuplet rest =>
      rcases tupletEvent_cases (u := u) rest with h' | ⟨p, q, h'⟩ <;> exact nomatch h'.symm.trans he
    | note rest =>
      obtain ⟨o, ho, h⟩ := Option.bind_eq_some_iff.1 h
      dsimp only at he
      rw [ho] at he
      cases o with
      | none =>
        cases h
        exact ⟨rfl, rfl⟩
      | some o => exact nomatch he
    | comment | bar _ | broken _ _ _ | field _ _ | chord _ | silence _ _ => exact nomatch he

theorem Reads.last {m m' : Music} (h : Reads u m [] m') : Same m m' := by
  generalize hes : ([] : List Event) = es at h
  induction h with
  | nil m => exact .refl m
  | pass he hs _ ih => exact (same_of_passed he hs).trans (ih hes)
  | step _ _ _ _ => exact nomatch hes

theorem Reads.cons {m m' : Music} {e : Event} {es : List Event} (h : Reads u m (e :: es) m') :
    ∃ m₀ m₁, Same m m₀ ∧ m₀.event u = e ∧ musicStep u m₀ = some (.inl m₁) ∧ Reads u m₁ es m' := by
  generalize hes : e :: es = l at h
  induction h with
  | nil m => exact nomatch hes
  | pass he hs _ ih =>
    obtain ⟨m₀, m₁, hsame, he', hs', hr⟩ := ih hes
    exact ⟨m₀, m₁, (same_of_passed he hs).trans hsame, he', hs', hr⟩
  | step he hs hr _ =>
    obtain ⟨rfl, rfl⟩ := List.cons.inj hes
    exact ⟨_, _, .refl _, he, hs, hr⟩

/-! ## One event -/

theorem one_le_ticksAt (cs : Text) {unit : Int} (h : 1 ≤ unit) : 1 ≤ ticksAt u cs unit := by
  unfold ticksAt lengthAt
  split
  · exact h
  · exact le_max_left _ _

/-- What was struck lasts at least as long as the new note, and as long as that if no tie goes on with it. -/
theorem held_of_strike {r : Reader} (hr : r.Ok) {ctx : MusicCtx} {midi : Int} {tied : Option Nat} {new : Note}
    (ht : tie r ctx midi new.tick = some tied) (hnew : new.voice = r.current) {notes : List Note} {last : Nat}
    (h : strike r.tune.notes tied new = some (notes, last)) :
    ∃ n, notes[last]? = some n ∧ n.voice = r.current ∧ new.duration ≤ n.duration := by
  unfold strike at h
  split at h
  · obtain ⟨n, hn, h⟩ := Option.bind_eq_some_iff.1 h
    obtain ⟨duration, hdur, h⟩ := Option.bind_eq_some_iff.1 h
    obtain ⟨-, rfl⟩ := add_eq_some.1 hdur
    cases h
    obtain ⟨n', hn', hvoice, -, -⟩ := tie_cases ht
    rw [hn] at hn'
    cases hn'
    have hone := (hr.notes n (List.mem_of_getElem? hn)).duration
    exact ⟨_, getElem?_set_notes hn, hvoice, by dsimp only; omega⟩
  · cases h
    exact ⟨new, List.getElem?_concat_length, hnew, le_rfl⟩

/-- What a note leaves: the voice goes on by its adjusted length, and the note is there for a mark behind it. -/
structure NoteRead (m : Music) (d : Int) (m' : Music) : Prop where
  ok : m'.Ok
  pos : 1 ≤ d
  tick : m'.tick = m.tick + adjusted d m.ctx
  ctx : m'.ctx = { afterAdjust m.ctx with lastNote := m'.ctx.lastNote, pendingTie := false }
  last : 0 ≤ m'.ctx.lastNote ∧ ∃ n, m'.reader.tune.notes[m'.ctx.lastNote.toNat]? = some n ∧
    n.voice = m'.reader.current ∧ adjusted d m.ctx ≤ n.duration

theorem note_leaves {m m' : Music} {c : Character} {cs rest : Text} {midi : Int} {r : Reader} (hm : m.Ok)
    (hread : readNote u m.reader (c :: cs) = some (some (midi, r, rest))) (h : note u m midi r rest = some m') (hok : m'.Ok) :
    NoteRead m (ticksAt u rest (unitValue (r.voiceOf r.current))) m' := by
  have hnat := natural_readNote u hread
  have hsome := isSome_current u hread
  have hcur : (r.voices.get? r.current).isSome := by
    rw [hnat.current, hnat.isSome]
    exact hsome
  obtain ⟨v, hv⟩ := Option.isSome_iff_exists.1 hcur
  have htick : m.tick = v.tick := by
    have hvoice := hnat.voiceOf (n := m.reader.current) hsome
    rw [← hnat.current, voiceOf_eq hv] at hvoice
    unfold Music.tick
    rw [← hnat.current]
    exact tick_of_natural hvoice.symm
  unfold note at h
  rw [voiceOf_eq hv] at h ⊢
  obtain ⟨unit, hunit, h⟩ := Option.bind_eq_some_iff.1 h
  obtain ⟨⟨o, rest'⟩, ho, h⟩ := Option.bind_eq_some_iff.1 h
  obtain ⟨⟨x, ctx⟩, hx, h⟩ := Option.bind_eq_some_iff.1 h
  obtain ⟨tied, htied, h⟩ := Option.bind_eq_some_iff.1 h
  obtain ⟨⟨notes, last⟩, hstrike, h⟩ := Option.bind_eq_some_iff.1 h
  obtain ⟨tick, ht, h⟩ := Option.bind_eq_some_iff.1 h
  obtain ⟨r', hr', h⟩ := Option.bind_eq_some_iff.1 h
  cases h
  obtain ⟨-, rfl⟩ := add_eq_some.1 ht
  obtain ⟨rfl, hfit, -⟩ := unitTicks_cases hunit
  obtain ⟨-, hadjusted, rfl⟩ := lasts_cases u hfit hfit hm.tupletDen ho hx
  unfold Reader.setTick at hr'
  obtain ⟨w, -, hr'⟩ := Option.bind_eq_some_iff.1 hr'
  cases hr'
  replace hadjusted : x = adjusted (ticksAt u rest (unitValue v)) m.ctx := hadjusted
  obtain ⟨n, hn, hvoice, hle⟩ := held_of_strike (hnat.ok hm.reader) htied rfl hstrike
  refine ⟨hok, one_le_ticksAt rest (le_max_left _ _), ?_, rfl, Int.natCast_nonneg _, n, hn, hvoice, ?_⟩
  · rw [htick, ← hadjusted]
    refine congrArg ABCVoice.tick (voiceOf_eq (v := { w with tick := v.tick + x }) ?_)
    rw [Reader.get?_setVoice]
    exact if_pos rfl
  · rw [← hadjusted]
    exact hle

theorem note_read {m m' : Music} {d : Int} (hm : m.Ok) (he : m.event u = .note d) (hstep : musicStep u m = some (.inl m')) :
    NoteRead m d m' := by
  have hok := musicStep_inl u hm hstep
  unfold Music.event at he
  unfold musicStep at hstep
  cases hrest : m.rest with
  | nil =>
    rw [hrest] at he
    exact nomatch he
  | cons c cs =>
    rw [hrest] at he hstep
    dsimp only at he hstep
    generalize element u c cs = e at he hstep
    cases e with
    | note rest =>
      obtain ⟨o, ho, hstep⟩ := Option.bind_eq_some_iff.1 hstep
      dsimp only at he
      rw [ho] at he
      cases o with
      | none => exact nomatch he
      | some o =>
        obtain ⟨midi, r, rest⟩ := o
        obtain rfl := Event.note.inj he
        exact note_leaves hm ho (of_map_inl hstep) hok
    | tuplet rest =>
      rcases tupletEvent_cases (u := u) rest with h' | ⟨p, q, h'⟩ <;> exact nomatch h'.symm.trans he
    | passed _ | tie _ | comment | bar _ | broken _ _ _ | field _ _ | chord _ | silence _ _ => exact nomatch he

theorem tuplet_leaves {m m' : Music} {p q : Int} (he : m.event u = .tuplet p q) (h : musicStep u m = some (.inl m')) :
    m'.tick = m.tick ∧ m'.ctx = { m.ctx with tupletLeft := p, tupletNum := q, tupletDen := p } := by
  unfold Music.event at he
  unfold musicStep at h
  cases hrest : m.rest with
  | nil =>
    rw [hrest] at he
    exact nomatch he
  | cons c cs =>
    rw [hrest] at he h
    dsimp only at he h
    generalize element u c cs = e at he h
    cases e with
    | tuplet rest =>
      replace h := of_map_inl h
      have hreader := (tuplet_cases u h).1
      refine ⟨?_, ?_⟩
      · unfold Music.tick
        rw [hreader, Reader.current_withVoice, Reader.voiceOf_withVoice]
      · unfold tuplet at h
        obtain ⟨⟨o, s⟩, ho, h⟩ := Option.bind_eq_some_iff.1 h
        obtain ⟨-, rfl, rfl⟩ := readInt_cases u ho
        dsimp only at he
        unfold tupletEvent at he
        split at he
        · rename_i p' cs' hp' hcs'
          split at he
          · rename_i q' hq'
            split at he
            · exact nomatch he
            rename_i hcolon
            obtain ⟨rfl, rfl⟩ := Event.tuplet.inj he
            rw [hp', hcs'] at h
            obtain ⟨⟨o', s'⟩, ho', h⟩ := Option.bind_eq_some_iff.1 h
            obtain ⟨-, rfl, rfl⟩ := readInt_cases u ho'
            dsimp only at h
            split at h
            · rename_i t ht
              exact absurd (congrArg List.head? ht) hcolon
            · rw [hq'] at h
              cases h
              rfl
          · exact nomatch he
        · exact nomatch he
    | note rest =>
      dsimp only at he
      split at he <;> exact nomatch he
    | passed _ | tie _ | comment | bar _ | broken _ _ _ | field _ _ | chord _ | silence _ _ => exact nomatch he

theorem one_le_marks {c : Character} {cs rest : Text} {longer : Bool} {count : Nat}
    (h : element u c cs = .broken longer count rest) : 1 ≤ count := by
  unfold element bracket at h
  split_ifs at h
  all_goals first
    | (obtain ⟨-, rfl, -⟩ := Element.broken.inj h; omega)
    | cases h
    | (split at h <;> [cases h; (split_ifs at h)])

def markedBefore (ticks : Int) (longer : Bool) (count : Nat) : Int :=
  max 1 (if longer then Chip.longer ticks count else shorter ticks count)

def markedBehind (ticks : Int) (longer : Bool) (count : Nat) : Int := markedBefore ticks (!longer) count

/-- What marks behind a note leave: the note is longer or shorter, and the voice goes on by the difference. -/
structure MarkRead (m : Music) (longer : Bool) (count : Nat) (m' : Music) : Prop where
  pos : 1 ≤ count
  tick : m'.tick = m.tick + (markedBefore m.held longer count - m.held)
  ctx : m'.ctx = m.ctx.mark longer count

theorem mark_leaves {m m' : Music} {longer : Bool} {count : Nat} (he : m.event u = .mark longer count)
    (hlast : 0 ≤ m.ctx.lastNote) {n : Note} (hn : m.reader.tune.notes[m.ctx.lastNote.toNat]? = some n)
    (hvoice : n.voice = m.reader.current) (h : musicStep u m = some (.inl m')) : MarkRead m longer count m' := by
  unfold Music.event at he
  unfold musicStep at h
  cases hrest : m.rest with
  | nil =>
    rw [hrest] at he
    exact nomatch he
  | cons c cs =>
    rw [hrest] at he h
    dsimp only at he h
    have hcount : ∀ l k rest, element u c cs = .broken l k rest → 1 ≤ k := fun _ _ _ => one_le_marks
    generalize element u c cs = e at he h hcount
    cases e with
    | broken l k rest =>
      obtain ⟨rfl, rfl⟩ := Event.mark.inj he
      have hk := hcount _ _ _ rfl
      replace h := of_map_inl h
      have hheld : m.held = n.duration := by
        unfold Music.held
        rw [hn]
        rfl
      unfold brokenRhythm at h
      rw [if_neg (by omega), hn, halves_eq, show max k 1 - 1 + 1 = k by omega] at h
      obtain ⟨half, hhalf, h⟩ := Option.bind_eq_some_iff.1 h
      obtain ⟨hle, rfl⟩ := when_eq_some.1 hhalf
      obtain ⟨n', hn', h⟩ := Option.bind_eq_some_iff.1 h
      cases hn'
      obtain ⟨now, hnow, h⟩ := Option.bind_eq_some_iff.1 h
      obtain ⟨d, hd, h⟩ := Option.bind_eq_some_iff.1 h
      obtain ⟨r, hr, h⟩ := Option.bind_eq_some_iff.1 h
      cases h
      obtain ⟨-, rfl⟩ := sub_eq_some.1 hd
      have hvalue : max 1 now = markedBefore n.duration l k := by
        unfold markedBefore
        cases l with
        | true =>
          have := @lengthened_eq n.duration (k - 1) (by omega)
          rw [show k - 1 + 1 = k by omega] at this
          obtain ⟨-, rfl⟩ := when_eq_some.1 (this.symm.trans hnow)
          rfl
        | false =>
          obtain ⟨-, rfl⟩ := fits_of_quot hnow
          rfl
      unfold Reader.advance at hr
      obtain ⟨v, hv, hr⟩ := Option.bind_eq_some_iff.1 hr
      obtain ⟨tick, ht, hr⟩ := Option.bind_eq_some_iff.1 hr
      obtain ⟨-, rfl⟩ := add_eq_some.1 ht
      cases hr
      replace hv : m.reader.voices.get? m.reader.current = some v := hvoice ▸ hv
      refine ⟨hk, ?_, rfl⟩
      unfold Music.tick
      rw [voiceOf_eq hv, hheld, ← hvalue]
      refine congrArg ABCVoice.tick (voiceOf_eq (v := { v with tick := v.tick + (max 1 now - n.duration) }) ?_)
      rw [Reader.get?_setVoice]
      exact if_pos hvoice.symm
    | tuplet rest =>
      rcases tupletEvent_cases (u := u) rest with h' | ⟨p, q, h'⟩ <;> exact nomatch h'.symm.trans he
    | note rest =>
      dsimp only at he
      split at he <;> exact nomatch he
    | passed _ | tie _ | comment | bar _ | field _ _ | chord _ | silence _ _ => exact nomatch he

/-! ## A tuplet -/

theorem notes_tick : ∀ {n : Nat} {m m' : Music} {d : Int}, m.Ok → m.ctx.broken = 0 → m.ctx.tupletLeft = n →
    Reads u m (List.replicate n (.note d)) m' →
    m'.tick = m.tick + n * max 1 ((d * m.ctx.tupletNum).tdiv m.ctx.tupletDen) ∧ (0 < n → 1 ≤ d)
  | 0, m, m', d, _, _, _, h => by
    refine ⟨?_, fun h => absurd h (lt_irrefl 0)⟩
    rw [h.last.tick, Int.natCast_zero, zero_mul, add_zero]
  | n + 1, m, m', d, hm, hbroken, hleft, h => by
    obtain ⟨m₀, m₁, hsame, he, hs, h⟩ := h.cons
    have hread := note_read (hsame.ok hm) he hs
    have hbroken' : m₁.ctx.broken = 0 := by
      rw [hread.ctx]
      rfl
    have hleft' : m₁.ctx.tupletLeft = n := by
      rw [hread.ctx, hsame.ctx]
      show (if 0 < m.ctx.tupletLeft then m.ctx.tupletLeft - 1 else m.ctx.tupletLeft) = n
      rw [if_pos (by omega)]
      omega
    have hnum : m₁.ctx.tupletNum = m.ctx.tupletNum ∧ m₁.ctx.tupletDen = m.ctx.tupletDen := by
      rw [hread.ctx, hsame.ctx]
      exact ⟨rfl, rfl⟩
    have hfirst : adjusted d m₀.ctx = max 1 ((d * m.ctx.tupletNum).tdiv m.ctx.tupletDen) := by
      rw [hsame.adjusted]
      unfold adjusted unbroken tupleted
      rw [if_pos hbroken, if_pos (by omega)]
    have ih := (notes_tick hread.ok hbroken' hleft' h).1
    rw [hnum.1, hnum.2, hread.tick, hfirst, hsame.tick] at ih
    refine ⟨?_, fun _ => hread.pos⟩
    rw [ih]
    push_cast
    ring

theorem share_iff {p x : Int} (hp : 0 < p) (hx : 0 < x) : p * max 1 (x.tdiv p) = x ↔ p ∣ x := by
  refine ⟨fun h => ⟨_, h.symm⟩, ?_⟩
  rintro ⟨k, rfl⟩
  have hk : 0 < k := (mul_pos_iff_of_pos_left hp).1 hx
  rw [Int.mul_tdiv_cancel_left _ (by omega), max_eq_right (by omega)]

theorem tuplet_tick {m m' : Music} {p q d : Int} (hm : m.Ok) (hbroken : m.ctx.broken = 0) (hp : 2 ≤ p) (hq : 1 ≤ q)
    (h : Reads u m (.tuplet p q :: List.replicate p.toNat (.note d)) m') : m'.tick = m.tick + q * d ↔ p ∣ q * d := by
  obtain ⟨m₀, m₁, hsame, he, hs, h⟩ := h.cons
  obtain ⟨htick, hctx⟩ := tuplet_leaves he hs
  have hok := musicStep_inl u (hsame.ok hm) hs
  have hbroken' : m₁.ctx.broken = 0 := by
    rw [hctx, hsame.ctx]
    exact hbroken
  have hleft : m₁.ctx.tupletLeft = (p.toNat : Int) := by
    rw [hctx, Int.toNat_of_nonneg (by omega)]
  obtain ⟨hrun, hpos⟩ := notes_tick hok hbroken' hleft h
  rw [htick, hsame.tick, hctx, Int.toNat_of_nonneg (by omega)] at hrun
  have hd := hpos (by omega)
  dsimp only at hrun
  rw [hrun, add_right_inj, mul_comm q d]
  exact share_iff (by omega) (Int.mul_pos (by omega) (by omega))

/-! ## A pair -/

theorem longer_eq {x : Int} (hx : 0 ≤ x) (count : Nat) :
    longer x count = 2 * x - x / 2 ^ count - (if x % 2 ^ count = 0 then 0 else 1) := by
  have hpos : (0 : Int) < 2 ^ count := Int.pow_pos (by decide)
  have hdiv := Int.mul_ediv_add_emod x (2 ^ count)
  have hlt := Int.emod_lt_of_pos x hpos
  have hnonneg := Int.emod_nonneg x hpos.ne'
  unfold longer
  rw [Int.tdiv_eq_ediv_of_nonneg (mul_nonneg hx (by omega)), Int.ediv_eq_iff_of_pos hpos]
  generalize x / 2 ^ count = a at *
  generalize x % 2 ^ count = b at *
  generalize (2 : Int) ^ count = P at *
  split
  · constructor <;> nlinarith
  · have hb : 1 ≤ b := by omega
    constructor <;> nlinarith

/-- A length and one that is not below it, taken apart by `P`. -/
structure Parts (P d e a b g b' : Int) : Prop where
  whole : 0 ≤ a
  more : 0 ≤ g
  rest : 0 ≤ b ∧ b < P
  rest' : 0 ≤ b' ∧ b' < P
  apart : e - d = P * g + b' - b
  one : a = 0 → 1 ≤ b
  below : d < P ↔ a = 0
  dvd : P ∣ d ↔ b = 0
  dvd' : P ∣ d + 1 ↔ b + 1 = P

theorem parts {P d e : Int} (hP : 2 ≤ P) (hd : 1 ≤ d) (hle : d ≤ e) : Parts P d e (d / P) (d % P) (e / P - d / P) (e % P) := by
  have hpos : 0 < P := by omega
  have hd' := Int.mul_ediv_add_emod d P
  have he' := Int.mul_ediv_add_emod e P
  have hb := Int.emod_lt_of_pos d hpos
  have hb' := Int.emod_nonneg d hpos.ne'
  have hwhole := Int.ediv_nonneg (show 0 ≤ d by omega) hpos.le
  have hzero : d / P = 0 ↔ d < P := by
    rw [Int.ediv_eq_iff_of_pos hpos]
    omega
  refine ⟨hwhole, Int.sub_nonneg.2 (Int.ediv_le_ediv hpos hle), ⟨hb', hb⟩,
    ⟨Int.emod_nonneg e hpos.ne', Int.emod_lt_of_pos e hpos⟩, ?_, fun h => ?_, hzero.symm, Int.dvd_iff_emod_eq_zero, ?_⟩
  · rw [Int.mul_sub]
    omega
  · rw [h, mul_zero] at hd'
    omega
  · rw [show d + 1 = d % P + 1 + P * (d / P) by omega, Int.dvd_add_left (Dvd.intro _ rfl)]
    refine ⟨fun h => ?_, fun h => by rw [h]⟩
    have := Int.le_of_dvd (by omega) h
    omega

theorem longer_iff {P d e : Int} (hP : 2 ≤ P) (hd : 1 ≤ d) (hle : d ≤ e) :
    e - d = e / P + (if e % P = 0 then 0 else 1) - max 1 (d / P) ↔
      e = d ∧ (P ∣ d ∨ d < P) ∨ P ≤ d ∧ (e = d + 1 ∨ e = d + 2 ∧ P ∣ d + 1) := by
  have h := parts hP hd hle
  have hapart := h.apart
  have hg : e / P = d / P + (e / P - d / P) := by omega
  rw [h.dvd, h.dvd', ← not_lt, h.below, hg]
  generalize e / P - d / P = g at *
  generalize d / P = a at *
  obtain ⟨hwhole, hmore, ⟨hb, hbP⟩, ⟨hb', hbP'⟩, -, hone, -, -, -⟩ := h
  generalize d % P = b at *
  generalize e % P = b' at *
  rcases show g = 0 ∨ g = 1 ∨ 2 ≤ g by omega with rfl | rfl | hg2
  · rw [mul_zero] at hapart
    split <;> omega
  · rw [mul_one] at hapart
    split <;> omega
  · have hmul : 0 ≤ (P - 2) * (g - 1) := mul_nonneg (by omega) (by omega)
    have hexpand : (P - 2) * (g - 1) = P * g - P - 2 * g + 2 := by ring
    split <;> omega

theorem shorter_iff {P d e : Int} (hP : 2 ≤ P) (hd : 1 ≤ d) (hle : d ≤ e) :
    e - d = max 1 (e / P) - d / P - (if d % P = 0 then 0 else 1) ↔ e = d ∧ (P ∣ d ∨ d < P) := by
  have h := parts hP hd hle
  have hapart := h.apart
  have hg : e / P = d / P + (e / P - d / P) := by omega
  rw [h.dvd, h.below, hg]
  generalize e / P - d / P = g at *
  generalize d / P = a at *
  obtain ⟨hwhole, hmore, ⟨hb, hbP⟩, ⟨hb', hbP'⟩, -, hone, -, -, -⟩ := h
  generalize d % P = b at *
  generalize e % P = b' at *
  rcases show g = 0 ∨ 1 ≤ g by omega with rfl | hg1
  · rw [mul_zero] at hapart
    split <;> omega
  · have hmul : 0 ≤ (P - 2) * (g - 1) := mul_nonneg (by omega) (by omega)
    have hexpand : (P - 2) * (g - 1) = P * g - P - 2 * g + 2 := by ring
    split <;> omega

/-- The pair keeps the time: the marks halve the length without a rest, or so often that 1 is left of it.  A note that
goes on from one tick, or two, may come out as well. -/
def PairKeeps (d e : Int) (longer : Bool) (count : Nat) : Prop :=
  e = d ∧ (2 ^ count ∣ d ∨ d < 2 ^ count) ∨ longer ∧ 2 ^ count ≤ d ∧ (e = d + 1 ∨ e = d + 2 ∧ 2 ^ count ∣ d + 1)

theorem pair_iff {d e : Int} {longer : Bool} {count : Nat} (hcount : 1 ≤ count) (hd : 1 ≤ d) (hle : d ≤ e) :
    markedBefore e longer count - e + markedBehind d longer count = d ↔ PairKeeps d e longer count := by
  have hP : (2 : Int) ≤ 2 ^ count := le_self_pow₀ (by decide) (by omega)
  have hshort (x : Int) (hx : 0 ≤ x) : shorter x count = x / 2 ^ count := Int.tdiv_eq_ediv_of_nonneg hx
  have hlong (x : Int) (hx : 1 ≤ x) : x ≤ Chip.longer x count := by
    have := parts hP hx le_rfl
    have hself := Int.mul_ediv_add_emod x (2 ^ count)
    have htwice : 2 * (x / 2 ^ count) ≤ 2 ^ count * (x / 2 ^ count) := Int.mul_le_mul_of_nonneg_right hP this.whole
    rw [longer_eq (by omega)]
    have h1 := this.one
    have hb := this.rest.1
    split <;> omega
  unfold PairKeeps markedBehind markedBefore
  cases longer with
  | true =>
    have h1 := hlong e (by omega)
    rw [longer_eq (by omega)] at h1
    simp only [Bool.not_true, Bool.false_eq_true, if_true, if_false, true_and]
    rw [hshort d (by omega), longer_eq (by omega), ← longer_iff hP hd hle]
    split at * <;> omega
  | false =>
    have h1 := hlong d hd
    rw [longer_eq (by omega)] at h1
    simp only [Bool.not_false, Bool.false_eq_true, if_true, if_false, false_and, or_false]
    rw [hshort e (by omega), longer_eq (by omega), ← shorter_iff hP hd hle]
    split at * <;> omega

theorem tdiv_nonpos {a b : Int} (ha : a ≤ 0) (hb : 0 ≤ b) : a.tdiv b ≤ 0 := by
  have := Int.tdiv_nonneg (show 0 ≤ -a by omega) hb
  rw [Int.neg_tdiv] at this
  omega

theorem max_unbroken (ticks : Int) (ctx : MusicCtx) (longer : Bool) (count : Nat) (hcount : 1 ≤ count) :
    max 1 (unbroken ticks (ctx.mark longer count)) = markedBehind (max 1 ticks) longer count := by
  have hP : (2 : Int) ≤ 2 ^ count := le_self_pow₀ (by decide) (by omega)
  have hmarks : marks (ctx.mark longer count) = count := by
    unfold marks MusicCtx.mark
    cases longer <;> simp
  have hunbroken : unbroken ticks (ctx.mark longer count) =
      if longer then shorter ticks count else Chip.longer ticks count := by
    unfold unbroken
    rw [hmarks]
    unfold MusicCtx.mark
    cases longer
    · rw [if_neg (by simp; omega), if_neg (by simp)]
      rfl
    · rw [if_neg (by simp; omega), if_pos (by simp; omega), if_pos rfl]
  rw [hunbroken]
  unfold markedBehind markedBefore
  by_cases hpos : 1 ≤ ticks
  · rw [max_eq_right hpos]
    cases longer <;> rfl
  -- a length below 1 is halved to one below 1, and so is 1
  rw [show max 1 ticks = 1 by omega]
  cases longer
  · have h1 : Chip.longer ticks count ≤ 0 :=
      tdiv_nonpos (mul_nonpos_of_nonpos_of_nonneg (by omega) (by omega)) (by omega)
    have h2 : Chip.longer 1 count = 1 := by
      rw [longer_eq (by decide), Int.ediv_eq_zero_of_lt (by decide) (by omega), Int.emod_eq_of_lt (by decide) (by omega)]
      rfl
    show max 1 (Chip.longer ticks count) = max 1 (Chip.longer 1 count)
    omega
  · have h1 : shorter ticks count ≤ 0 := tdiv_nonpos (by omega) (by omega)
    have h2 : shorter 1 count = 0 := Int.tdiv_eq_zero_of_lt (by decide) (by omega)
    show max 1 (shorter ticks count) = max 1 (shorter 1 count)
    omega

theorem pair_tick {m m₁ m' : Music} {d₁ d₂ d : Int} {longer : Bool} {count : Nat} (hm : m.Ok)
    (hfirst : Reads u m [.note d₁] m₁) (h : Reads u m₁ [.mark longer count, .note d₂] m') (hd : m₁.tick = m.tick + d)
    (hd' : m₁.lasts d₂ = d) : m'.tick = m.tick + 2 * d ↔ PairKeeps d m₁.held longer count := by
  obtain ⟨m₀, n₀, hsame, he, hs, hfirst⟩ := hfirst.cons
  have hread := note_read (hsame.ok hm) he hs
  have hsame₁ := hfirst.last
  obtain ⟨m₂, n₂, hsame₂, he₂, hs₂, h⟩ := h.cons
  replace hsame₂ := hsame₁.trans hsame₂
  have hok₂ := hsame₂.ok hread.ok
  obtain ⟨hlast, n, hn, hvoice, hle⟩ := hread.last
  rw [← hsame₂.reader] at hvoice
  have hlast₂ : m₂.ctx.lastNote = n₀.ctx.lastNote := by rw [hsame₂.ctx]
  rw [← hlast₂, ← hsame₂.reader] at hn
  have hmark := mark_leaves he₂ (by rw [hlast₂]; exact hlast) hn hvoice hs₂
  have hheld : m₂.held = n.duration := by
    unfold Music.held
    rw [hn]
    rfl
  obtain ⟨m₃, n₃, hsame₃, he₃, hs₃, h⟩ := h.cons
  have hread₃ := note_read (hsame₃.ok (musicStep_inl u hok₂ hs₂)) he₃ hs₃
  have hadjusted : adjusted d₁ m₀.ctx = d := by
    have := hread.tick
    rw [← hsame₁.tick, hd, hsame.tick] at this
    omega
  have hlasts : m₂.lasts d₂ = d := by rw [hsame₂.lasts, ← hsame₁.lasts, hd']
  have hsecond : adjusted d₂ m₃.ctx = markedBehind d longer count := by
    rw [hsame₃.adjusted, hmark.ctx, ← hlasts]
    exact max_unbroken (tupleted d₂ m₂.ctx) m₂.ctx longer count hmark.pos
  rw [hadjusted] at hle
  have hone : 1 ≤ d := by
    rw [← hadjusted]
    exact one_le_adjusted _ _
  rw [h.last.tick, hread₃.tick, hsecond, hsame₃.tick, hmark.tick, hheld, hsame₂.tick, hread.tick, hadjusted, hsame.tick,
    hsame₁.held, ← hsame₂.held, hheld, ← pair_iff hmark.pos hone hle]
  omega

end

/-- **Tuplets and broken rhythm against the clock.**  Wherever the reader comes to in whatever tune: a tuplet `(p:q` of `p`
notes takes the time of `q` of them exactly if `p` divides it, and two notes that last the same, with marks between them, take
the time of both exactly if the marks halve it without a rest. -/
theorem durations_keep_iff (u : Unicode) :
    (∀ (m m' : Music) (p q d : Int), Reached u m → m.ctx.broken = 0 → 2 ≤ p → 1 ≤ q →
      Reads u m (.tuplet p q :: List.replicate p.toNat (.note d)) m' → (m'.tick = m.tick + q * d ↔ p ∣ q * d)) ∧
    ∀ (m m₁ m' : Music) (d₁ d₂ d : Int) (longer : Bool) (count : Nat), Reached u m → Reads u m [.note d₁] m₁ →
      Reads u m₁ [.mark longer count, .note d₂] m' → m₁.tick = m.tick + d → m₁.lasts d₂ = d →
      (m'.tick = m.tick + 2 * d ↔ PairKeeps d m₁.held longer count) :=
  ⟨fun _ _ _ _ _ hm hbroken hp hq h => tuplet_tick hm.ok hbroken hp hq h,
    fun _ _ _ _ _ _ _ _ hm hfirst h hd hd' => pair_tick hm.ok hfirst h hd hd'⟩

def reads (u : Unicode) : Nat → Music → Option (List Event × Music)
  | 0, m     => some ([], m)
  | n + 1, m =>
    match musicStep u m with
    | some (.inl m₁) => (reads u n m₁).map (fun p => (m.event u :: p.1, p.2))
    | _              => none

theorem reads_of {u : Unicode} : ∀ {n : Nat} {m m' : Music} {es : List Event}, reads u n m = some (es, m') → Reads u m es m'
  | 0, m, m', es, h => by
    cases h
    exact .nil m
  | n + 1, m, m', es, h => by
    unfold reads at h
    split at h
    · rename_i m₁ hs
      obtain ⟨⟨es', m''⟩, hr, h⟩ := Option.map_eq_some_iff.1 h
      obtain ⟨rfl, rfl⟩ := Prod.mk.inj h
      exact .step rfl hs (reads_of hr)
    · exact nomatch h

def lineOf (s : String) : Music := { reader := {}, rest := text s }

theorem reached_lineOf (u : Unicode) (s : String) : Reached u (lineOf s) :=
  Reached.line (text s) (show Runs.run (readLine u) {} [] = some {} from rfl)

theorem reads_tick (n : Nat) (s : String) (es : List Event) (tick : Int)
    (h : (reads .plain n (lineOf s)).map (fun p => (p.1, p.2.tick)) = some (es, tick)) :
    ∃ m', Reads .plain (lineOf s) es m' ∧ m'.tick = tick := by
  obtain ⟨⟨es', m'⟩, hr, h⟩ := Option.map_eq_some_iff.1 h
  obtain ⟨rfl, rfl⟩ := Prod.mk.inj h
  exact ⟨m', reads_of hr, rfl⟩

/-- Three eighths in the time of two. -/
theorem durations_keep_triplet : ∃ m', Reads .plain (lineOf "(3:2CCC") (.tuplet 3 2 :: List.replicate 3 (.note 240)) m' ∧
    m'.tick = (lineOf "(3:2CCC").tick + 2 * 240 := by
  obtain ⟨m', h, -⟩ := reads_tick 4 "(3:2CCC" (.tuplet 3 2 :: List.replicate 3 (.note 240)) 480 (by decide)
  exact ⟨m', h, ((durations_keep_iff .plain).1 _ m' 3 2 240 (reached_lineOf _ _) rfl (by decide) (by decide) h).2 (by decide)⟩

/-- Seven eighths in the time of two are four ticks short of it. -/
theorem septuplet_short : ¬ ∀ (m m' : Music) (p q d : Int), Reached .plain m → m.ctx.broken = 0 → 2 ≤ p → 1 ≤ q →
    Reads .plain m (.tuplet p q :: List.replicate p.toNat (.note d)) m' → m'.tick = m.tick + q * d := by
  intro hall
  obtain ⟨m', h, htick⟩ := reads_tick 8 "(7:2CCCCCCC" (.tuplet 7 2 :: List.replicate 7 (.note 240)) 476 (by decide)
  have := hall _ m' 7 2 240 (reached_lineOf _ _) rfl (by decide) (by decide) h
  rw [htick] at this
  exact absurd this (by decide)

end Chip
end Prose
