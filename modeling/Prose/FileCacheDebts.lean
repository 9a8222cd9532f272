import Prose.FileCacheModel
/-!
# FileCacheDebts — what a thread has of a file

A thread's debt is the locks it has, the size it has read under one, the attributes the host has told it, and, while it opens
the file, what it may say of the cache.  A size changes only under `sizeLock`, a stamp is what the host has told this thread,
and the cache is enabled by the thread that has disabled it: so the programs say, whatever the answers.
-/
namespace Prose
namespace HostfsCache

open Tasks
open HostfsFile (Mount Reply)

structure Debt where
  refresh : Bool := false
  write : Bool := false
  read : Bool := false
  disabled : Bool := false
  known : Option Clip := none
  reply : Option Seen := none
  /-- it opens the file: when it began, and whether without a writer -/
  since : Option (Nat × Option Nat) := none
  /-- it has taken the attributes as they are now, and then found the cache good, or emptied it -/
  taken : Bool := false
  served : Bool := false

structure Debt.Clear (g : Debt) : Prop where
  refresh : g.refresh = false
  write : g.write = false
  read : g.read = false
  disabled : g.disabled = false

def after : (a : Act) → Answer a → Debt → Debt
  | .lockRefresh, _, g => { g with refresh := true }
  | .unlockRefresh, _, g => { g with refresh := false }
  | .lockSize, _, g => { g with write := true }
  | .unlockSize, _, g => { g with write := false, known := none }
  | .lockShared, _, g => { g with read := true }
  | .unlockShared, _, g => { g with read := false, known := none }
  | .getAttr, a, g => { g with reply := a }
  | .setAttr _, a, g => { g with reply := a, known := none }
  | .takeAttr _, _, g => { g with reply := none, taken := true }
  | .worth, more, g => { g with served := g.served || (g.taken && !more) }
  | .disable, ok, g => { g with disabled := ok, served := true }
  | .adopt _, _, g => { g with reply := none, known := none }
  | .enable, _, g => { g with disabled := false }
  | .getSize, clip, g => { g with known := if g.write || g.read then some clip else none }
  | .grow _ _, _, g => { g with known := none }
  | .setSize _ _, _, g => { g with reply := none, known := none }
  | .setStamp _, _, g => { g with reply := none }
  | .closed _, _, g => { g with reply := none }
  | _, _, g => g

def ready : Act → Debt → Prop
  | .unlockRefresh, g => g.refresh = true ∧ g.disabled = false
  | .unlockSize, g => g.write = true
  | .setAttr (.size _), g => g.write = true
  | .takeAttr a, g => g.reply = some a
  | .disable, g => g.refresh = true
  | .adopt a, g => g.write = true ∧ g.disabled = true ∧ g.reply = a
  | .enable, g => g.disabled = true
  | .grow append range, g => g.write = true ∧ ∃ clip, g.known = some clip ∧ clip.size < range.stop ∧ range.pos ≤ range.stop ∧
      (append = true → range.pos = clip.size)
  | .setSize _ a, g => g.write = true ∧ g.reply = some a
  | .setStamp a, g => g.reply = some a
  | .closed a, g => g.reply = some a
  | .addOpen _ since quiet, g => g.served = true ∧ g.since = some (since, quiet)
  | .write clip range, g => g.known = some clip ∧ range.stop ≤ clip.size
  | _, _ => True

/-! ## The programs -/

abbrev Owing (p : Hook Unit) (g : Debt) : Prop := Honest ready after (fun _ _ => True) Debt.Clear p g

abbrev From {α : Type} (p : Hook α) (g : Debt) (Q : α → Debt → Prop) : Prop := Settles ready after (fun _ _ => True) p g Q

theorem clear_none : Debt.Clear {} := ⟨rfl, rfl, rfl, rfl⟩

section
variable {g : Debt} (hg : g.Clear)
include hg

theorem refreshCache_settles {Q : Unit → Debt → Prop}
    (hq : ∀ g', g'.Clear → g'.since = g.since → (g.taken = true → g'.served = true) → Q () g') : From refreshCache g Q := by
  have hserved (x : Bool) (h : g.taken = true) : (x || (g.taken && !false)) = true := by simp [h]
  refine settles_bind.2 (settles_one.2 ⟨trivial, fun more _ => ?_⟩)
  cases more
  · exact hq _ ⟨hg.refresh, hg.write, hg.read, hg.disabled⟩ rfl (hserved _)
  refine settles_bind.2 (settles_one.2 ⟨trivial, fun _ _ => settles_bind.2 (settles_one.2 ⟨trivial, fun more _ => ?_⟩)⟩)
  cases more
  · exact settles_one.2 ⟨⟨rfl, hg.disabled⟩, fun _ _ => hq _ ⟨rfl, hg.write, hg.read, hg.disabled⟩ rfl (hserved _)⟩
  refine settles_bind.2 (settles_one.2 ⟨rfl, fun ok _ => ?_⟩)
  cases ok
  · exact settles_one.2 ⟨⟨rfl, rfl⟩, fun _ _ => hq _ ⟨rfl, hg.write, hg.read, rfl⟩ rfl (fun _ => rfl)⟩
  refine settles_bind.2 (settles_one.2 ⟨trivial, fun a _ => ?_⟩)
  refine settles_bind.2 (settles_one.2 ⟨trivial, fun _ _ => ?_⟩)
  refine settles_bind.2 (settles_one.2 ⟨⟨rfl, rfl, rfl⟩, fun _ _ => ?_⟩)
  refine settles_bind.2 (settles_one.2 ⟨rfl, fun _ _ => ?_⟩)
  refine settles_bind.2 (settles_one.2 ⟨rfl, fun _ _ => ?_⟩)
  exact settles_one.2 ⟨⟨rfl, rfl⟩, fun _ _ => hq _ ⟨rfl, rfl, hg.read, rfl⟩ rfl (fun _ => rfl)⟩

theorem revalidate_settles (force : Bool) {Q : Bool → Debt → Prop} (hfalse : ∀ g', g'.Clear → Q false g')
    (htrue : ∀ g', g'.Clear → g'.since = g.since → (force = true → g'.served = true) → Q true g') : From (revalidate force) g Q := by
  have hask (h : Debt) (hh : h.Clear) (hsince : h.since = g.since) : From (revalidate true) h Q := by
    refine settles_bind.2 (show From _ h Q from ?_)
    dsimp only
    rw [if_neg Bool.false_ne_true]
    refine settles_bind.2 (settles_one.2 ⟨trivial, fun a _ => ?_⟩)
    cases a with
    | none => exact hfalse _ ⟨hh.refresh, hh.write, hh.read, hh.disabled⟩
    | some a =>
      have htaken : Debt.Clear { h with reply := none, taken := true } := ⟨hh.refresh, hh.write, hh.read, hh.disabled⟩
      refine settles_bind.2 (settles_one.2 ⟨rfl, fun _ _ => settles_bind.2 ?_⟩)
      refine refreshCache_settles htaken fun g' hg' hs hserved => ?_
      exact htrue g' hg' (hs.trans hsince) fun _ => hserved rfl
  cases force
  · refine settles_bind.2 (settles_one.2 ⟨trivial, fun fresh _ => ?_⟩)
    cases fresh
    · exact hask g hg rfl
    · exact settles_bind.2 (refreshCache_settles hg fun g' hg' hs _ => htrue g' hg' hs nofun)
  · exact hask g hg rfl

theorem setSize_settles (size : Int) {Q : Bool → Debt → Prop} (hq : ∀ ok g', g'.Clear → Q ok g') : From (setSize size) g Q := by
  unfold setSize
  split
  · exact hq false g hg
  refine settles_bind.2 (settles_one.2 ⟨trivial, fun _ _ => settles_bind.2 (settles_one.2 ⟨trivial, fun _ _ => ?_⟩)⟩)
  refine settles_bind.2 (settles_one.2 ⟨rfl, fun a _ => ?_⟩)
  cases a with
  | none =>
    refine settles_bind.2 (settles_one.2 ⟨rfl, fun _ _ => settles_bind.2 (settles_one.2 ⟨⟨rfl, hg.disabled⟩, fun _ _ => ?_⟩)⟩)
    exact hq false _ ⟨rfl, rfl, hg.read, hg.disabled⟩
  | some a =>
    refine settles_bind.2 (settles_one.2 ⟨⟨rfl, rfl⟩, fun _ _ => ?_⟩)
    refine settles_bind.2 (settles_one.2 ⟨rfl, fun _ _ => settles_bind.2 (settles_one.2 ⟨⟨rfl, hg.disabled⟩, fun _ _ => ?_⟩)⟩)
    exact hq true _ ⟨rfl, rfl, hg.read, hg.disabled⟩

theorem writeAttr_settles (change : Option Change) (hc : ∀ n, change ≠ some (.size n)) : Owing (writeAttr change) g := by
  have hrest (change : Change) (hr : ready (.setAttr change) g) : Owing (writeAttr (some change)) g := by
    refine settles_bind.2 (settles_one.2 ⟨hr, fun a _ => ?_⟩)
    cases a with
    | none => exact ⟨hg.refresh, hg.write, hg.read, hg.disabled⟩
    | some a => exact settles_one.2 ⟨rfl, fun _ _ => ⟨hg.refresh, hg.write, hg.read, hg.disabled⟩⟩
  match change with
  | none => exact hg
  | some .mode => exact hrest .mode trivial
  | some .times => exact hrest .times trivial
  | some (.size n) => exact absurd rfl (hc n)

theorem tryOpen_settles (truncate : Bool) {Q : Bool → Debt → Prop} (hq : ∀ ok g', g'.Clear → Q ok g') :
    From (tryOpen truncate) g Q := by
  refine settles_bind.2 (settles_one.2 ⟨trivial, fun ok _ => ?_⟩)
  cases ok
  · exact hq false g hg
  cases truncate
  · exact hq true g hg
  · exact setSize_settles hg 0 hq

end

theorem lookup_owing : Owing lookup {} := by
  refine settles_bind.2 (settles_one.2 ⟨trivial, fun a _ => ?_⟩)
  cases a with
  | none => exact clear_none
  | some a => exact settles_one.2 ⟨rfl, fun _ _ => ⟨rfl, rfl, rfl, rfl⟩⟩

theorem readStat_owing : Owing readStat {} :=
  settles_bind.2 (revalidate_settles clear_none false (fun _ h => h) fun _ h _ _ => h)

theorem openFile_owing (m : Mount) (writable truncate : Bool) (since : Nat) (quiet : Option Nat) :
    Owing (openFile m writable truncate since quiet) { since := some (since, quiet) } := by
  unfold openFile
  split
  · exact ⟨rfl, rfl, rfl, rfl⟩
  refine settles_bind.2 (revalidate_settles ⟨rfl, rfl, rfl, rfl⟩ true (fun _ h => h) fun g hg hsince hserved => ?_)
  refine settles_bind.2 (settles_one.2 ⟨⟨hserved rfl, hsince⟩, fun _ _ => ?_⟩)
  have hrest (ok : Bool) (g' : Debt) (h : g'.Clear) :
      Owing (if ok = true then ask (.giveCookie writable) else ask (.dropOpen writable)) g' := by
    cases ok
    · exact settles_one.2 ⟨trivial, fun _ _ => h⟩
    · exact settles_one.2 ⟨trivial, fun _ _ => h⟩
  cases writable
  · exact hrest true g hg
  · exact settles_bind.2 (tryOpen_settles hg truncate hrest)

theorem close_owing (writable : Bool) : Owing (close writable) {} := by
  cases writable
  · exact clear_none
  refine settles_bind.2 (settles_one.2 ⟨trivial, fun _ _ => settles_bind.2 (settles_one.2 ⟨trivial, fun a _ => ?_⟩)⟩)
  cases a with
  | none => exact ⟨rfl, rfl, rfl, rfl⟩
  | some a => exact settles_one.2 ⟨rfl, fun _ _ => ⟨rfl, rfl, rfl, rfl⟩⟩

theorem freeCookie_owing (writable : Bool) : Owing (freeCookie writable) {} :=
  settles_one.2 ⟨trivial, fun _ _ => clear_none⟩

theorem writeStat_owing (m : Mount) (size : Option Int) (mode times : Bool) : Owing (writeStat m size mode times) {} := by
  unfold writeStat
  split
  · exact clear_none
  have hrest (ok : Bool) (g : Debt) (hg : g.Clear) : Owing (if ok = true then
      writeAttr (if times = true then some .times else if mode = true then some .mode else none) else pure ()) g := by
    cases ok
    · exact hg
    · exact writeAttr_settles hg _ fun n => by split_ifs <;> exact nofun
  cases size with
  | none => exact hrest true {} clear_none
  | some size => exact settles_bind.2 (setSize_settles clear_none size hrest)

/-- The range is reserved under the lock its size was read under; an append is not empty. -/
theorem write_owing (m : Mount) (append : Bool) (pos : Int) (length : Nat) : Owing (write m append pos length) {} := by
  unfold write
  split
  · exact clear_none
  refine settles_bind.2 (settles_one.2 ⟨trivial, fun _ _ => settles_bind.2 (settles_one.2 ⟨trivial, fun _ _ => ?_⟩)⟩)
  refine settles_bind.2 (settles_one.2 ⟨trivial, fun clip _ => ?_⟩)
  have hend (g : Debt) (hr : g.refresh = true) (hw : g.write = true) (hread : g.read = false) (hd : g.disabled = false) :
      Owing (ask .unlockSize >>= fun _ => ask .unlockRefresh) g :=
    settles_bind.2 (settles_one.2 ⟨hw, fun _ _ => settles_one.2 ⟨⟨hr, hd⟩, fun _ _ => ⟨rfl, rfl, hread, hd⟩⟩⟩)
  obtain ⟨start, hstart⟩ : ∃ start, start = if append = true then clip.size else pos := ⟨_, rfl⟩
  dsimp only
  rw [← hstart]
  split
  · next hlt =>
    have happend (ha : append = true) : start = clip.size := by rw [hstart, if_pos ha]
    have hr : ready (.grow append ⟨start, start + length⟩) { refresh := true, write := true, known := some clip } :=
      ⟨rfl, clip, rfl, hlt, by show start ≤ start + length; omega, happend⟩
    exact settles_bind.2 (settles_one.2 ⟨hr, fun _ _ => hend _ rfl rfl rfl rfl⟩)
  · exact hend { refresh := true, write := true, known := some clip } rfl rfl rfl rfl

/-! ## Page I/O -/

section
variable {m : Mount} {clip : Clip} {g : Debt} (hg : g.known = some clip)
include hg

theorem writeVec_settles {Q : Bool → Debt → Prop} (hq : ∀ ok, Q ok g) (pos : Int) (length vecDone : Nat)
    (hfit : pos + length ≤ clip.size) : From (writeVec m clip pos length vecDone) g Q := by
  fun_induction writeVec m clip pos length vecDone with
  | case1 vecDone hlt ih =>
    refine settles_bind.2 (settles_one.2 ⟨⟨hg, by show pos + vecDone + _ ≤ clip.size; omega⟩, fun r _ => ?_⟩)
    split
    · exact hq _
    · exact ih r (by assumption)
  | case2 => exact hq _

theorem writeVecs_settles {Q : Unit → Debt → Prop} (hq : Q () g) (pos : Int) (toWrite : Nat) (hfit : pos + toWrite ≤ clip.size) :
    ∀ (vecs : List Nat) (done : Nat), From (writeVecs m clip pos toWrite vecs done) g Q
  | [], _ => hq
  | length :: vecs, done => by
    unfold writeVecs
    split
    · refine settles_bind.2 (writeVec_settles hg (fun ok => ?_) _ _ _ (by omega))
      cases ok
      · exact hq
      · exact writeVecs_settles hq pos toWrite hfit vecs _
    · exact hq

end

/-- **What goes out is inside the file.** -/
theorem toWrite_le {size pos : Int} {requested : Nat} (h : toWrite size pos requested ≠ 0) :
    pos + toWrite size pos requested ≤ size := by
  unfold toWrite at *
  split at h
  · exact absurd rfl h
  · rw [if_neg (by assumption)]
    omega

theorem writePages_owing (m : Mount) (pos : Int) (vecs : List Nat) (requested : Nat) : Owing (writePages m pos vecs requested) {} := by
  unfold writePages
  split
  · exact clear_none
  refine settles_bind.2 (settles_one.2 ⟨trivial, fun _ _ => settles_bind.2 (settles_one.2 ⟨trivial, fun clip _ => ?_⟩)⟩)
  have hend (g : Debt) (hr : g.refresh = false) (hw : g.write = false) (hd : g.disabled = false) :
      Owing (ask .unlockShared) g := settles_one.2 ⟨trivial, fun _ _ => ⟨hr, hw, rfl, hd⟩⟩
  split
  · exact hend _ rfl rfl rfl
  rename_i hne
  refine settles_bind.2 (settles_one.2 ⟨trivial, fun ok _ => ?_⟩)
  cases ok
  · exact hend _ rfl rfl rfl
  · exact settles_bind.2 (writeVecs_settles rfl (hend _ rfl rfl rfl) pos _ (toWrite_le hne) vecs 0)

def debtOf (s : State) : Start → Debt
  | .openFile _ _ => { since := some (s.host.version, if s.node.writers = 0 then some s.writerOpens else none) }
  | _ => {}

end HostfsCache
end Prose
