import Prose.DirModel
/-!
# DirReads — a directory is listed once, whatever the calls

Whatever the host sends, no byte outside a reply is read: the head of a record is looked at once it is there, and its name once
the record is.  A host's batch is walked entry by entry, and what the callback has not taken is what the position is before; so
between two calls the cookie stands at one entry of the listing, and its offset resumes there.
-/
namespace Prose
namespace HostfsDir

open List

open Bytes (slice natAt)

/-! ## No byte outside the reply -/

section
variable {b : List UInt8} {plus : Bool} {pos : Nat}

theorem natAt_some (pos n : Nat) (h : pos + n ≤ b.length) : ∃ x, natAt b pos n = some x :=
  ⟨_, by unfold natAt; rw [Bytes.slice_some h]; rfl⟩

theorem record_some (h : pos + nameOffset plus ≤ b.length) : ∃ r, record b plus pos = some r := by
  have hoff := nameOffset_pos plus
  have hlookup : ∃ x, lookupAt b plus pos = some x := by
    unfold lookupAt
    cases plus
    · exact ⟨none, rfl⟩
    · have h : pos + 152 ≤ b.length := h
      obtain ⟨nodeid, hnode⟩ := natAt_some (b := b) pos 8 (by omega)
      rw [if_pos rfl, hnode, Option.bind_some]
      split
      · rw [Bytes.slice_some (by omega)]
        exact ⟨_, rfl⟩
      · exact ⟨none, rfl⟩
  obtain ⟨lookup, hlookup⟩ := hlookup
  obtain ⟨ino, hino⟩ := natAt_some (b := b) (pos + nameOffset plus - 24) 8 (by omega)
  obtain ⟨off, hoffs⟩ := natAt_some (b := b) (pos + nameOffset plus - 16) 8 (by omega)
  obtain ⟨namelen, hlen⟩ := natAt_some (b := b) (pos + nameOffset plus - 8) 4 (by omega)
  unfold record
  rw [hlookup, hino, hoffs, hlen]
  exact ⟨_, rfl⟩

/-- **The walk reads nothing outside**, if the callback does not with a record whose name is there. -/
theorem forEachDirRecord_some (plus : Bool) {σ : Type} {callback : Record → σ → Option (σ × Bool)}
    (hcallback : ∀ r s, r.nameAt + r.namelen ≤ b.length → (callback r s).isSome) (pos : Nat) (s : σ) :
    (forEachDirRecord b plus callback pos s).isSome := by
  fun_induction forEachDirRecord b plus callback pos s with
  | case1 => rfl
  | case2 pos s _ hle hnone =>
    obtain ⟨r, hr⟩ := record_some (Nat.le_of_not_lt hle)
    rw [hr] at hnone
    exact nomatch hnone
  | case3 => rfl
  | case4 pos s _ _ r hr hle hnone =>
    obtain ⟨hname, hsize⟩ := record_size hr
    have := align_le (nameOffset plus + r.namelen)
    have hsome := hcallback r s (by omega)
    rw [hnone] at hsome
    exact nomatch hsome
  | case5 => rfl
  | case6 _ _ _ _ _ _ _ _ _ ih => exact ih
  | case7 => rfl

theorem give_some (d : Directory) (call : Call) (r : Record) (s : Loop) (h : r.nameAt + r.namelen ≤ b.length) :
    (give d call b r s).isSome := by
  unfold give
  rw [Bytes.slice_some h]
  split_ifs <;> rfl

theorem note_some (r : Record) (noted : List Noted) (h : r.nameAt + r.namelen ≤ b.length) : (note b r noted).isSome := by
  unfold note
  cases r.lookup with
  | none => rfl
  | some lookup =>
    dsimp only
    rw [Bytes.slice_some h]
    show (if _ then _ else _ : Option _).isSome
    split_ifs <;> rfl

end

section
variable (d : Directory) (call : Call) (host : Nat → Nat → Option (List UInt8))

theorem dirFetch_some (b : List UInt8) (s : Loop) : ∃ noted, dirFetch d b s =
    some { s with
      cookie := { s.cookie with buffer := b, position := 0, eof := s.cookie.eof || b.isEmpty, asked := s.cookie.asked + 1 }
      noted } := by
  unfold dirFetch
  split
  · obtain ⟨w, hw⟩ := Option.isSome_iff_exists.1
      (forEachDirRecord_some true (fun r n h => note_some (b := b) r n h) 0 s.noted)
    rw [hw]
    exact ⟨w.state, rfl⟩
  · exact ⟨s.noted, rfl⟩

theorem walk_some (s : Loop) : (walk d call s).isSome := by
  unfold walk
  obtain ⟨w, hw⟩ := Option.isSome_iff_exists.1
    (forEachDirRecord_some d.plus (fun r t h => give_some d call r t h) s.cookie.position s)
  rw [hw]
  show (if _ then _ else _ : Option _).isSome
  split_ifs <;> rfl

/-- **Whatever the host sends**, every round has an outcome. -/
theorem round_some (s : Loop) : (round d call host s).isSome := by
  unfold round
  split
  · split
    · split
      · rfl
      split
      · dsimp only
        split_ifs <;> rfl
      rename_i b _
      obtain ⟨noted, hn⟩ := dirFetch_some d b s
      rw [hn]
      show (if _ then _ else _ : Option _).isSome
      split_ifs
      · rfl
      · exact walk_some d call _
    · exact walk_some d call s
  · rfl

end
/-! ## The records of a batch -/

namespace Entry

variable {plus : Bool} {e : Entry}

theorem bytes_length : (e.bytes plus).length = align (nameOffset plus + e.name.length) := by
  have hout := e.out_length
  have hpad := e.pad_length
  unfold bytes nameOffset align at *
  cases plus <;> simp only [length_append, Bytes.le_length, Bool.false_eq_true, ↓reduceIte, length_nil] <;> omega

theorem bytes_pos (plus : Bool) (e : Entry) : 0 < (e.bytes plus).length := by
  have := align_le (nameOffset plus + e.name.length)
  have := nameOffset_pos plus
  rw [bytes_length]
  omega

def record (plus : Bool) (pos : Nat) (e : Entry) : Record :=
  ⟨e.lookup plus, e.ino.toNat, e.off.toNat, e.name.length, pos + nameOffset plus, (e.bytes plus).length⟩

theorem lookupAt_bytes (pre post : List UInt8) : lookupAt (pre ++ (e.bytes plus ++ post)) plus pre.length = some (e.lookup plus) := by
  unfold lookupAt lookup bytes
  cases plus with
  | false => rfl
  | true =>
    have hsplit : e.out = e.out.take 8 ++ e.out.drop 8 := (take_append_drop 8 e.out).symm
    have hnode : natAt (pre ++ ((if true then e.out else []) ++ (Bytes.le 8 e.ino.toNat ++ (Bytes.le 8 e.off.toNat ++
        (Bytes.le 4 e.name.length ++ (Bytes.le 4 e.kind.toNat ++ (e.name ++ e.pad))))) ++ post)) pre.length 8 =
        some (Bytes.nat (e.out.take 8)) := by
      unfold natAt
      rw [if_pos rfl]
      nth_rewrite 1 [hsplit]
      rw [append_assoc, append_assoc, Bytes.slice_at rfl (by rw [length_take, e.out_length]; rfl), Option.map_some]
    rw [if_pos rfl, hnode, Option.bind_some, append_assoc, if_pos rfl, Bytes.slice_at rfl e.out_length]
    simp only [true_and, Option.map_some]
    split_ifs <;> rfl

theorem head_length (plus : Bool) (e : Entry) (pre : List UInt8) : (pre ++ (if plus then e.out else [])).length + 24 = pre.length + nameOffset plus := by
  have := e.out_length
  cases plus <;> simp [nameOffset, this]

/-- **A record says what it is made of.** -/
theorem record_bytes (pre post : List UInt8) :
    HostfsDir.record (pre ++ (e.bytes plus ++ post)) plus pre.length = some (e.record plus pre.length) := by
  have hhead := head_length plus e pre
  have hino : natAt (pre ++ (e.bytes plus ++ post)) (pre.length + nameOffset plus - 24) 8 = some e.ino.toNat := by
    have hsplit : pre ++ (e.bytes plus ++ post) = (pre ++ (if plus then e.out else [])) ++ (Bytes.le 8 e.ino.toNat ++
        (Bytes.le 8 e.off.toNat ++ (Bytes.le 4 e.name.length ++ (Bytes.le 4 e.kind.toNat ++ (e.name ++ (e.pad ++ post)))))) := by
      simp only [bytes, append_assoc]
    rw [hsplit]
    exact Bytes.natAt_le (by omega) e.ino.toNat_lt
  have hoff : natAt (pre ++ (e.bytes plus ++ post)) (pre.length + nameOffset plus - 16) 8 = some e.off.toNat := by
    have hsplit : pre ++ (e.bytes plus ++ post) = (pre ++ (if plus then e.out else []) ++ Bytes.le 8 e.ino.toNat) ++
        (Bytes.le 8 e.off.toNat ++ (Bytes.le 4 e.name.length ++ (Bytes.le 4 e.kind.toNat ++ (e.name ++ (e.pad ++ post))))) := by
      simp only [bytes, append_assoc]
    rw [hsplit]
    exact Bytes.natAt_le (by rw [length_append, Bytes.le_length]; omega) e.off.toNat_lt
  have hlen : natAt (pre ++ (e.bytes plus ++ post)) (pre.length + nameOffset plus - 8) 4 = some e.name.length := by
    have hsplit : pre ++ (e.bytes plus ++ post) = (pre ++ (if plus then e.out else []) ++ Bytes.le 8 e.ino.toNat ++
        Bytes.le 8 e.off.toNat) ++ (Bytes.le 4 e.name.length ++ (Bytes.le 4 e.kind.toNat ++ (e.name ++ (e.pad ++ post)))) := by
      simp only [bytes, append_assoc]
    rw [hsplit]
    exact Bytes.natAt_le (by rw [length_append, length_append, Bytes.le_length, Bytes.le_length]; omega) e.name_lt
  unfold HostfsDir.record record
  rw [lookupAt_bytes, hino, hoff, hlen, bytes_length]
  rfl

theorem name_bytes (pre post : List UInt8) :
    slice (pre ++ (e.bytes plus ++ post)) (pre.length + nameOffset plus) e.name.length = some e.name := by
  have hhead := head_length plus e pre
  have hsplit : pre ++ (e.bytes plus ++ post) = (pre ++ (if plus then e.out else []) ++ Bytes.le 8 e.ino.toNat ++
      Bytes.le 8 e.off.toNat ++ Bytes.le 4 e.name.length ++ Bytes.le 4 e.kind.toNat) ++ (e.name ++ (e.pad ++ post)) := by
    simp only [bytes, append_assoc]
  rw [hsplit]
  exact Bytes.slice_at (by rw [length_append, length_append, length_append, length_append, Bytes.le_length,
    Bytes.le_length, Bytes.le_length, Bytes.le_length]; omega) rfl

end Entry

/-! ## The walk over a batch -/

/-- A callback on entries, until it says to stop; what is left, and the state then. -/
def takeEntries {σ : Type} (f : Entry → σ → σ × Bool) : List Entry → σ → List Entry × σ
  | [], s => ([], s)
  | e :: es, s =>
    match f e s with
    | (s, false) => (e :: es, s)
    | (s, true)  => takeEntries f es s

/-- **A batch is walked entry by entry**, and the position stands before what is left. -/
theorem forEachDirRecord_batch {σ : Type} {plus : Bool} {f : Entry → σ → σ × Bool} {callback : Record → σ → Option (σ × Bool)}
    {b : List UInt8} (hcallback : ∀ (e : Entry) pos s, slice b (pos + nameOffset plus) e.name.length = some e.name →
      callback (e.record plus pos) s = some (f e s)) : ∀ (es : List Entry) (pre : List UInt8) (s : σ),
    b = pre ++ es.flatMap (Entry.bytes plus) → ∃ pos, pos ≤ b.length ∧
      b.drop pos = (takeEntries f es s).1.flatMap (Entry.bytes plus) ∧
      forEachDirRecord b plus callback pre.length s = some ⟨true, pos, (takeEntries f es s).2⟩
  | [], pre, s, hb => by
    rw [flatMap_nil, append_nil] at hb
    subst hb
    refine ⟨b.length, Nat.le_refl _, drop_length, ?_⟩
    unfold forEachDirRecord
    rw [if_neg (Nat.lt_irrefl _)]
    rfl
  | e :: es, pre, s, hb => by
    rw [flatMap_cons] at hb
    have hlen : b.length = pre.length + ((e.bytes plus).length + (es.flatMap (Entry.bytes plus)).length) := by
      rw [hb, length_append, length_append]
    have hpos := Entry.bytes_pos plus e
    have hsize : nameOffset plus ≤ (e.bytes plus).length := by
      have := align_le (nameOffset plus + e.name.length)
      rw [Entry.bytes_length]
      omega
    have hrecord : record b plus pre.length = some (e.record plus pre.length) := by
      rw [hb]
      exact Entry.record_bytes pre _
    have hname : slice b (pre.length + nameOffset plus) e.name.length = some e.name := by
      rw [hb]
      exact Entry.name_bytes pre _
    have hcall := hcallback e pre.length s hname
    rw [forEachDirRecord, if_pos (by omega), if_neg (by omega)]
    split
    · next hnone =>
      rw [hrecord] at hnone
      cases hnone
    rename_i r hr
    obtain rfl := Option.some.inj (hrecord.symm.trans hr)
    rw [if_neg (by show ¬b.length < pre.length + (e.bytes plus).length; omega), hcall]
    unfold takeEntries
    obtain ⟨t, more⟩ := f e s
    cases more with
    | false =>
      refine ⟨pre.length, by omega, ?_, rfl⟩
      rw [hb, drop_left, flatMap_cons]
    | true =>
      have hpre : pre.length + (e.record plus pre.length).size = (pre ++ e.bytes plus).length := length_append.symm
      dsimp only
      rw [hpre]
      exact forEachDirRecord_batch hcallback es (pre ++ e.bytes plus) t (by rw [hb, append_assoc])

section
variable (d : Directory) (call : Call)

/-- The callback of `hostfs_read_dir`, of an entry. -/
def giveEntry (e : Entry) (s : Loop) : Loop × Bool :=
  if call.count ≤ s.count then (s, false)
  else if e.usable = false then ({ s with cookie := { s.cookie with offset := e.off.toNat } }, true)
  else if s.space < recordLength e.name.length then ({ s with overflow := true }, false)
  else
    ({ s with
      cookie := { s.cookie with offset := e.off.toNat }
      count := s.count + 1
      space := s.space - recordLength e.name.length
      out := s.out ++ [e.given d call] }, true)

variable {d call}

theorem give_entry {b : List UInt8} {pos : Nat} (e : Entry) (s : Loop)
    (h : slice b (pos + nameOffset d.plus) e.name.length = some e.name) :
    give d call b (e.record d.plus pos) s = some (giveEntry d call e s) := by
  unfold give giveEntry Entry.record
  dsimp only
  rw [h]
  unfold Entry.usable
  split_ifs <;> rfl

def lastOff : Nat → List Entry → Nat
  | offset, []  => offset
  | _, e :: es  => lastOff e.off.toNat es

/-- What a walk of `hostfs_read_dir` has done. -/
structure Took (d : Directory) (call : Call) (s t : Loop) (taken rest : List Entry) : Prop where
  cookie : t.cookie = { s.cookie with offset := lastOff s.cookie.offset taken }
  count : t.count = s.count + (taken.filter Entry.usable).length
  out : t.out = s.out ++ (taken.filter Entry.usable).map (Entry.given d call)
  stopped : rest ≠ [] → call.count ≤ t.count ∨ t.overflow = true

/-- **The walk takes entries until the count is reached, or one does not fit.** -/
theorem takeEntries_took (d : Directory) (call : Call) : ∀ (es : List Entry) (s : Loop), ∃ taken, es = taken ++ (takeEntries (giveEntry d call) es s).1 ∧
    Took d call s (takeEntries (giveEntry d call) es s).2 taken (takeEntries (giveEntry d call) es s).1
  | [], s => ⟨[], rfl, rfl, rfl, (append_nil _).symm, fun h => absurd rfl h⟩
  | e :: es, s => by
    have hstop (t : Loop) (ht : giveEntry d call e s = (t, false)) (hcookie : t.cookie = s.cookie) (hcount : t.count = s.count)
        (hout : t.out = s.out) (hwhy : call.count ≤ t.count ∨ t.overflow = true) :
        ∃ taken, e :: es = taken ++ (takeEntries (giveEntry d call) (e :: es) s).1 ∧
          Took d call s (takeEntries (giveEntry d call) (e :: es) s).2 taken (takeEntries (giveEntry d call) (e :: es) s).1 := by
      have htake : takeEntries (giveEntry d call) (e :: es) s = (e :: es, t) := by
        unfold takeEntries
        rw [ht]
      rw [htake]
      exact ⟨[], rfl, hcookie, hcount, hout.trans (append_nil _).symm, fun _ => hwhy⟩
    have hgo (t : Loop) (ht : giveEntry d call e s = (t, true)) (hcookie : t.cookie = { s.cookie with offset := e.off.toNat })
        (hcount : t.count = s.count + ([e].filter Entry.usable).length)
        (hout : t.out = s.out ++ ([e].filter Entry.usable).map (Entry.given d call)) :
        ∃ taken, e :: es = taken ++ (takeEntries (giveEntry d call) (e :: es) s).1 ∧
          Took d call s (takeEntries (giveEntry d call) (e :: es) s).2 taken (takeEntries (giveEntry d call) (e :: es) s).1 := by
      have htake : takeEntries (giveEntry d call) (e :: es) s = takeEntries (giveEntry d call) es t := by
        rw [takeEntries, ht]
      rw [htake]
      obtain ⟨taken, hes, htook⟩ := takeEntries_took d call es t
      have hfilter : (e :: taken).filter Entry.usable = [e].filter Entry.usable ++ taken.filter Entry.usable := by
        rw [← filter_append]
        rfl
      refine ⟨e :: taken, congrArg (e :: ·) hes, ?_, ?_, ?_, htook.stopped⟩
      · rw [htook.cookie, hcookie]
        rfl
      · rw [htook.count, hcount, hfilter, length_append, Nat.add_assoc]
      · rw [htook.out, hout, hfilter, map_append, append_assoc]
    by_cases hcount : call.count ≤ s.count
    · exact hstop s (by rw [giveEntry, if_pos hcount]) rfl rfl rfl (.inl hcount)
    by_cases hu : e.usable = false
    · have hnone : [e].filter Entry.usable = [] := by rw [filter_singleton, hu]; rfl
      exact hgo _ (by rw [giveEntry, if_neg hcount, if_pos hu]) rfl (by rw [hnone]; rfl) (by rw [hnone]; exact (append_nil _).symm)
    by_cases hspace : s.space < recordLength e.name.length
    · exact hstop { s with overflow := true } (by rw [giveEntry, if_neg hcount, if_neg hu, if_pos hspace]) rfl rfl rfl (.inr rfl)
    · have hone : [e].filter Entry.usable = [e] := by rw [filter_singleton, eq_true_of_ne_false hu]; rfl
      exact hgo _ (by rw [giveEntry, if_neg hcount, if_neg hu, if_neg hspace]) rfl (by rw [hone]; rfl) (by rw [hone]; rfl)

end

/-! ## A call -/

theorem resume_lastOff (l : Listing) : ∀ (taken rest : List Entry) (offset : Nat),
    l.entries.drop (l.resume offset) = taken ++ rest → l.resume (lastOff offset taken) = l.resume offset + taken.length
  | [], _, _, _ => rfl
  | e :: taken, rest, offset, h => by
    have hget : l.entries[l.resume offset]? = some e := by
      rw [← head?_drop, h]
      rfl
    have hnext := l.after _ e hget
    have hdrop : l.entries.drop (l.resume e.off.toNat) = taken ++ rest := by
      rw [hnext, ← drop_drop, h]
      rfl
    show l.resume (lastOff e.off.toNat taken) = _
    rw [resume_lastOff l taken rest e.off.toNat hdrop, hnext, length_cons]
    omega

section
variable {d : Directory} {call : Call} {host : Nat → Nat → Option (List UInt8)} {l : Listing}

/-- **The cookie stands before that entry**: its offset resumes there, and what is left of its buffer are the next ones. -/
structure At (l : Listing) (d : Directory) (c : Cookie) (n : Nat) : Prop where
  le : n ≤ l.entries.length
  offset : l.resume c.offset = n
  ahead : ∃ batch rest, l.entries.drop n = batch ++ rest ∧ c.position ≤ c.buffer.length ∧
    c.buffer.drop c.position = batch.flatMap (Entry.bytes d.plus)
  done : c.eof = true → n = l.entries.length

def Handed (l : Listing) (d : Directory) (call : Call) (n m : Nat) (out : List Dirent) : Prop :=
  ∃ taken, l.entries.drop n = taken ++ l.entries.drop m ∧ m = n + taken.length ∧
    out = (taken.filter Entry.usable).map (Entry.given d call)

structure InCall (l : Listing) (d : Directory) (call : Call) (n : Nat) (s : Loop) : Prop where
  here : At l d s.cookie (l.resume s.cookie.offset)
  out : Handed l d call n (l.resume s.cookie.offset) s.out
  count : s.count = s.out.length

/-- Behind it: it has succeeded with no entry at the end only, or if it was asked for none. -/
structure Behind (l : Listing) (d : Directory) (call : Call) (n : Nat) (r : Result) : Prop where
  here : At l d r.cookie (l.resume r.cookie.offset)
  out : Handed l d call n (l.resume r.cookie.offset) r.entries
  last : r.status = .ok → r.entries = [] → 0 < call.count → l.resume r.cookie.offset = l.entries.length

def Running (call : Call) (s : Loop) : Prop := s.count < call.count ∧ s.overflow = false

instance (call : Call) (s : Loop) : Decidable (Running call s) := inferInstanceAs (Decidable (_ ∧ _))

def left (l : Listing) (call : Call) (s : Loop) : Nat :=
  if Running call s then l.entries.length - l.resume s.cookie.offset + 1 else 0

variable {n : Nat} {s : Loop}

theorem At.same {c c' : Cookie} (h : At l d c n) (hoffset : c'.offset = c.offset) (hbuffer : c'.buffer = c.buffer)
    (hposition : c'.position = c.position) (heof : c'.eof = c.eof) : At l d c' n :=
  ⟨h.le, by rw [hoffset]; exact h.offset, by rw [hbuffer, hposition]; exact h.ahead, by rw [heof]; exact h.done⟩

theorem finish_behind (h : InCall l d call n s) (hlast : Running call s → l.resume s.cookie.offset = l.entries.length) :
    Behind l d call n (finish s) := by
  unfold finish
  split
  · next ho =>
    have hnil : s.out = [] := eq_nil_of_length_eq_zero (by rw [← h.count]; exact ho.2)
    refine ⟨h.here, ?_, nofun⟩
    have hout := h.out
    rw [hnil] at hout
    exact hout
  · next ho =>
    refine ⟨h.here, h.out, fun _ hnil hcall => ?_⟩
    have hcount : s.count = 0 := by
      rw [h.count, show s.out = [] from hnil]
      rfl
    refine hlast ⟨by omega, ?_⟩
    by_contra hover
    exact ho ⟨eq_true_of_ne_false hover, hcount⟩

/-- **The records that are left are walked**: the cookie stands further on, or the loop is done. -/
theorem walk_inCall (h : InCall l d call n s) (hmore : s.cookie.position < s.cookie.buffer.length) (hrun : Running call s) :
    ∃ t, walk d call s = some (.inl t) ∧ InCall l d call n t ∧ left l call t < left l call s := by
  obtain ⟨batch, behind, hahead, hle, hbuffer⟩ := h.here.ahead
  have hsplit : s.cookie.buffer = s.cookie.buffer.take s.cookie.position ++ batch.flatMap (Entry.bytes d.plus) := by
    rw [← hbuffer, take_append_drop]
  have htake : (s.cookie.buffer.take s.cookie.position).length = s.cookie.position := by
    rw [length_take]
    omega
  obtain ⟨pos, hpos, hdrop, hwalk⟩ := forEachDirRecord_batch (f := giveEntry d call) (b := s.cookie.buffer)
    (fun e _ s he => give_entry e s he) batch (s.cookie.buffer.take s.cookie.position) s hsplit
  rw [htake] at hwalk
  obtain ⟨taken, hbatch, htook⟩ := takeEntries_took d call batch s
  obtain ⟨⟨rest, t⟩, hstate⟩ : ∃ x, takeEntries (giveEntry d call) batch s = x := ⟨_, rfl⟩
  rw [hstate] at hbatch hdrop hwalk htook
  dsimp only at hbatch hdrop hwalk htook
  have hresume : l.resume t.cookie.offset = l.resume s.cookie.offset + taken.length := by
    rw [htook.cookie]
    exact resume_lastOff l taken (rest ++ behind) s.cookie.offset (by rw [hahead, hbatch, append_assoc])
  have hdropped : l.entries.drop (l.resume t.cookie.offset) = rest ++ behind := by
    rw [hresume, ← drop_drop, hahead, hbatch, append_assoc, drop_left]
  have hlen : l.resume s.cookie.offset + taken.length ≤ l.entries.length := by
    have hl := congrArg List.length hahead
    rw [hbatch, length_drop, length_append, length_append] at hl
    have := h.here.le
    omega
  have hcookie : t.cookie.buffer = s.cookie.buffer ∧ t.cookie.eof = s.cookie.eof := by
    rw [htook.cookie]
    exact ⟨rfl, rfl⟩
  refine ⟨{ t with cookie := { t.cookie with position := pos } }, ?_, ⟨⟨?_, rfl, ⟨rest, behind, hdropped, ?_, ?_⟩, ?_⟩, ?_, ?_⟩, ?_⟩
  · unfold walk
    rw [hwalk]
    rfl
  · show l.resume t.cookie.offset ≤ _
    rw [hresume]
    exact hlen
  · show pos ≤ t.cookie.buffer.length
    rw [hcookie.1]
    exact hpos
  · show t.cookie.buffer.drop pos = _
    rw [hcookie.1]
    exact hdrop
  · intro heof
    have hdone := h.here.done (hcookie.2.symm.trans heof)
    show l.resume t.cookie.offset = _
    omega
  · obtain ⟨before, hbefore, hn, hout⟩ := h.out
    refine ⟨before ++ taken, ?_, ?_, ?_⟩
    · show _ = _ ++ l.entries.drop (l.resume t.cookie.offset)
      rw [hdropped, hbefore, hahead, hbatch, append_assoc, append_assoc]
    · show l.resume t.cookie.offset = _
      rw [hresume, length_append]
      omega
    · rw [htook.out, hout, filter_append, map_append]
  · rw [htook.count, htook.out, length_append, length_map, h.count]
  · unfold left
    rw [if_pos hrun]
    split
    · next hrunt =>
      -- all was taken, and that was not nothing
      have hrest : rest = [] := by
        by_contra hne
        rcases htook.stopped hne with hc | ho
        · exact absurd hrunt.1 (Nat.not_lt.2 hc)
        · exact nomatch hrunt.2.symm.trans ho
      have htaken : taken ≠ [] := by
        rintro rfl
        have hnil := congrArg List.length hbuffer
        rw [hbatch, hrest, length_drop] at hnil
        simp only [append_nil, flatMap_nil, length_nil] at hnil
        omega
      have := length_pos_of_ne_nil htaken
      show l.entries.length - l.resume t.cookie.offset + 1 < _
      omega
    · omega

theorem round_inCall (hhost : Batches d.plus l host) (h : InCall l d call n s) :
    (∃ t, round d call host s = some (.inl t) ∧ InCall l d call n t ∧ left l call t < left l call s) ∨
      ∃ r, round d call host s = some (.inr r) ∧ Behind l d call n r := by
  have hleft (hpos : s.cookie.buffer.length ≤ s.cookie.position) (b : List UInt8) (hb : host s.cookie.asked s.cookie.offset = some b) :
      (b = [] → l.resume s.cookie.offset = l.entries.length) ∧ ∀ eof, (eof = true → b = []) → At l d
        { s.cookie with buffer := b, position := 0, eof, asked := s.cookie.asked + 1 } (l.resume s.cookie.offset) := by
    obtain ⟨batch, rest, hdrop, rfl, hempty⟩ := hhost _ _ b h.here.le hb
    have hend (hb : batch.flatMap (Entry.bytes d.plus) = []) : l.resume s.cookie.offset = l.entries.length := by
      have hbatch : batch = [] := by
        cases batch with
        | nil => rfl
        | cons e es =>
          have := Entry.bytes_pos d.plus e
          rw [flatMap_cons] at hb
          rw [(append_eq_nil_iff.1 hb).1] at this
          exact absurd this (Nat.lt_irrefl 0)
      have hl := congrArg List.length hdrop
      rw [hempty hbatch, hbatch, length_drop] at hl
      have := h.here.le
      simp only [append_nil, length_nil] at hl
      omega
    exact ⟨hend, fun eof heof => ⟨h.here.le, rfl, ⟨batch, rest, hdrop, Nat.zero_le _, rfl⟩, fun he => hend (heof he)⟩⟩
  unfold round
  split
  · next hrun =>
    split
    · next hpos =>
      split
      · next heof => exact .inr ⟨_, rfl, finish_behind h fun _ => h.here.done heof⟩
      rename_i heof
      split
      · next hfail =>
        right
        have hasked : InCall l d call n { s with cookie := { s.cookie with asked := s.cookie.asked + 1 } } :=
          ⟨h.here.same rfl rfl rfl rfl, h.out, h.count⟩
        dsimp only
        split
        · next hcount =>
          refine ⟨_, rfl, ?_⟩
          unfold finish
          rw [if_neg (fun ho => absurd ho.2 (Nat.pos_iff_ne_zero.1 hcount))]
          refine ⟨hasked.here, hasked.out, fun _ hnil _ => ?_⟩
          have := h.count
          rw [show s.out = [] from hnil, length_nil] at this
          omega
        · next hcount =>
          refine ⟨_, rfl, hasked.here, ?_, nofun⟩
          have hnil : s.out = [] := eq_nil_of_length_eq_zero (by rw [← h.count]; omega)
          have hout := hasked.out
          rw [hnil] at hout
          exact hout
      · next b hb =>
        obtain ⟨hend, hat⟩ := hleft hpos b hb
        obtain ⟨noted, hnoted⟩ := dirFetch_some d b s
        rw [hnoted, show s.cookie.eof = false from eq_false_of_ne_true heof, Bool.false_or]
        have hfetched := hat b.isEmpty List.isEmpty_iff.1
        have hin : InCall l d call n { s with
            cookie := { s.cookie with buffer := b, position := 0, eof := b.isEmpty, asked := s.cookie.asked + 1 }, noted } :=
          ⟨hfetched, h.out, h.count⟩
        show (∃ t, (if b.isEmpty = true then _ else _) = _ ∧ _) ∨ ∃ r, (if b.isEmpty = true then _ else _) = _ ∧ _
        split
        · next hempty => exact .inr ⟨_, rfl, finish_behind hin fun _ => hend (List.isEmpty_iff.1 hempty)⟩
        · next hempty =>
          left
          refine walk_inCall hin (length_pos_of_ne_nil fun hb => hempty (List.isEmpty_iff.2 hb)) hrun
    · next hpos => exact .inl (walk_inCall h (by omega) hrun)
  · next hrun => exact .inr ⟨_, rfl, finish_behind h fun hr => absurd hr hrun⟩

/-- **A call returns**, and what it has handed out is what it has passed. -/
theorem returns (hhost : Batches d.plus l host) {c : Cookie} (h : At l d c n) (call : Call) :
    (∃ r, Returns d call host c r) ∧ ∀ r, Returns d call host c r → Behind l d call n r := by
  have hinit : InCall l d call n (start call c) := by
    obtain rfl := h.offset
    exact ⟨h, ⟨[], rfl, rfl, rfl⟩, rfl⟩
  have hkeep (s t : Loop) (hs : InCall l d call n s) (ht : round d call host s = some (.inl t)) :
      InCall l d call n t ∧ left l call t < left l call s := by
    rcases round_inCall hhost hs with ⟨u, hu, hin⟩ | ⟨r, hr, -⟩
    · rw [hu] at ht
      rw [← Sum.inl.inj (Option.some.inj ht)]
      exact hin
    · exact nomatch hr.symm.trans ht
  refine ⟨?_, fun r hr => ?_⟩
  · have hleft (s t : Loop) (hs : InCall l d call n s) (ht : round d call host s = some (.inl t)) :
        left l call t < left l call s := (hkeep s t hs ht).2
    have hsome := (Loops.isSome_loop hleft (fun s t hs ht => (hkeep s t hs ht).1)
      (Nat.lt_succ_self (left l call (start call c))) hinit).2 fun t _ => round_some d call host t
    obtain ⟨r, hr⟩ := Option.isSome_iff_exists.1 hsome
    exact ⟨r, _, hr⟩
  · obtain ⟨fuel, hr⟩ := hr
    obtain ⟨s, hs, hround⟩ := Loops.loop_inv (fun s t hs ht => (hkeep s t hs ht).1) hinit hr
    rcases round_inCall hhost hs with ⟨t, ht, -⟩ | ⟨r', hr', hbehind⟩
    · exact nomatch ht.symm.trans hround
    · rw [hr'] at hround
      rw [← Sum.inr.inj (Option.some.inj hround)]
      exact hbehind

end

/-! ## Call after call -/

def cookieAfter : Cookie → List (Call × Result) → Cookie
  | c, []        => c
  | _, (_, r) :: rest => cookieAfter r.cookie rest

def Chunks (d : Directory) (calls : List (Call × Result)) (chunks : List (List Entry)) : Prop :=
  List.Forall₂ (fun x chunk => x.2.entries = chunk.map (Entry.given d x.1)) calls chunks

/-- It is over when a call that was asked for entries succeeds with none. -/
def Over (calls : List (Call × Result)) : Prop :=
  ∃ call r, calls.getLast? = some (call, r) ∧ 0 < call.count ∧ r.status = .ok ∧ r.entries = []

section
variable {d : Directory} {host : Nat → Nat → Option (List UInt8)} {l : Listing}

theorem calls_listed (hhost : Batches d.plus l host) : ∀ (calls : List (Call × Result)) (c : Cookie) (n : Nat), At l d c n →
    Calls d host c calls → ∃ m chunks taken, At l d (cookieAfter c calls) m ∧ l.entries.drop n = taken ++ l.entries.drop m ∧
      Chunks d calls chunks ∧ chunks.flatten = taken.filter Entry.usable ∧ (Over calls → m = l.entries.length)
  | [], c, n, h, _ => ⟨n, [], [], h, rfl, .nil, rfl, fun ⟨_, _, hlast, _⟩ => nomatch hlast⟩
  | (call, r) :: rest, c, n, h, hcalls => by
    obtain ⟨hreturns, hrest⟩ := hcalls
    have hbehind := (returns hhost h call).2 r hreturns
    obtain ⟨taken, htaken, -, hout⟩ := hbehind.out
    obtain ⟨m, chunks, more, hat, hmore, hchunks, hflat, hover⟩ := calls_listed hhost rest r.cookie _ hbehind.here hrest
    refine ⟨m, taken.filter Entry.usable :: chunks, taken ++ more, hat, ?_, .cons hout hchunks, ?_, fun ho => ?_⟩
    · rw [htaken, hmore, append_assoc]
    · rw [flatten_cons, hflat, filter_append]
    · cases rest with
      | cons x rest => exact hover ho
      | nil =>
        obtain ⟨_, _, hlast, hcount, hok, hnil⟩ := ho
        cases hlast
        have hm := congrArg List.length hmore
        have hend := hbehind.last hok hnil hcount
        rw [hend, drop_length, length_nil, length_append, length_drop] at hm
        have := hat.le
        omega

theorem at_start : At l d {} 0 :=
  ⟨Nat.zero_le _, l.start, ⟨[], _, rfl, Nat.le_refl 0, rfl⟩, nofun⟩

/-- **A directory is listed in order**, each entry once, except those whose name Haiku cannot hold; a call always returns; and
whatever a host sends, no byte outside the reply is read. -/
theorem directory_listed (d : Directory) (l : Listing) (host : Nat → Nat → Option (List UInt8)) (hhost : Batches d.plus l host)
    (calls : List (Call × Result)) (hcalls : Calls d host {} calls) :
    (∀ (any : Nat → Nat → Option (List UInt8)) (call : Call) (s : Loop), (round d call any s).isSome) ∧
    (∀ call, ∃ r, Returns d call host (cookieAfter {} calls) r) ∧
    ∃ chunks, Chunks d calls chunks ∧ chunks.flatten <+: l.entries.filter Entry.usable ∧
      (Over calls → chunks.flatten = l.entries.filter Entry.usable) := by
  obtain ⟨m, chunks, taken, hat, hdrop, hchunks, hflat, hover⟩ := calls_listed hhost calls {} 0 at_start hcalls
  rw [drop_zero] at hdrop
  refine ⟨fun any call s => round_some d call any s, fun call => (returns hhost hat call).1, chunks, hchunks, ?_, fun ho => ?_⟩
  · rw [hdrop, filter_append, hflat]
    exact prefix_append _ _
  · rw [hdrop, hover ho, drop_length, append_nil, hflat]

end

/-! ## A small directory -/

def first : Entry := ⟨List.replicate 128 0, 5, 1, 0, [97], List.replicate 7 0, by simp, by simp, by simp [align]⟩
def second : Entry := ⟨9 :: List.replicate 127 0, 6, 2, 0, [98, 99], List.replicate 6 0, by simp, by simp, by simp [align]⟩

def two : Listing where
  entries := [first, second]
  resume offset := min offset 2
  start := rfl
  after i e h := by
    match i, h with
    | 0, h => rw [← Option.some.inj h]; rfl
    | 1, h => rw [← Option.some.inj h]; rfl

def oneByOne (_ offset : Nat) : Option (List UInt8) := some (((two.entries.drop offset).take 1).flatMap (Entry.bytes true))

theorem oneByOne_batches : Batches true two oneByOne := by
  intro n offset b _ hb
  refine ⟨(two.entries.drop offset).take 1, (two.entries.drop offset).drop 1, ?_, (Option.some.inj hb).symm, fun hnil => ?_⟩
  · rw [take_append_drop]
    match offset with
    | 0 | 1 => rfl
    | offset + 2 => rw [show two.resume (offset + 2) = 2 from Nat.min_eq_right (by omega), drop_eq_nil_of_le (by simp [two]),
        drop_eq_nil_of_le (by simp [two])]
  · rw [take_eq_nil_iff] at hnil
    rcases hnil with h | h
    · exact nomatch h
    · rw [h]
      rfl

def small : Directory := ⟨1, 3, true⟩

def outcome (call : Call) (c : Cookie) : Result := (Loops.loop (round small call oneByOne) 5 (start call c)).getD ⟨.failed, [], c, []⟩

def fourCalls : List (Call × Result) :=
  let r1 := outcome ⟨40, 5, 0⟩ {}
  let r2 := outcome ⟨8, 5, 0⟩ r1.cookie
  let r3 := outcome ⟨100, 5, 0⟩ r2.cookie
  [(⟨40, 5, 0⟩, r1), (⟨8, 5, 0⟩, r2), (⟨100, 5, 0⟩, r3), (⟨100, 5, 0⟩, outcome ⟨100, 5, 0⟩ r3.cookie)]

theorem fourCalls_calls : Calls small oneByOne {} fourCalls :=
  ⟨⟨5, by decide +kernel⟩, ⟨5, by decide +kernel⟩, ⟨5, by decide +kernel⟩, ⟨5, by decide +kernel⟩, trivial⟩

theorem fourCalls_over : Over fourCalls := ⟨_, _, rfl, Nat.succ_pos 4, by decide +kernel, by decide +kernel⟩

theorem fourCalls_listed : ∃ chunks, Chunks small fourCalls chunks ∧ chunks.flatten = two.entries.filter Entry.usable := by
  obtain ⟨-, -, chunks, hchunks, -, hover⟩ := directory_listed small two oneByOne oneByOne_batches fourCalls fourCalls_calls
  exact ⟨chunks, hchunks, hover fourCalls_over⟩

/-- A call that asks for nothing gets nothing, and it is not over. -/
theorem none_asked : ¬ ∀ (d : Directory) (l : Listing) (host : Nat → Nat → Option (List UInt8)), Batches d.plus l host →
    ∀ calls, Calls d host {} calls → (∃ call r, calls.getLast? = some (call, r) ∧ r.entries = []) →
      ∃ chunks, Chunks d calls chunks ∧ chunks.flatten = l.entries.filter Entry.usable := by
  intro h
  have hcalls : Calls small oneByOne {} [(⟨100, 0, 0⟩, ⟨.ok, [], {}, []⟩)] := ⟨⟨1, by decide⟩, trivial⟩
  obtain ⟨chunks, hchunks, hflat⟩ := h small two oneByOne oneByOne_batches _ hcalls ⟨_, _, rfl, rfl⟩
  cases hchunks with
  | cons hout hrest =>
    cases hrest
    rw [map_eq_nil_iff.1 hout.symm] at hflat
    have hlength := congrArg List.length hflat
    revert hlength
    decide

end HostfsDir
end Prose
