import Mathlib.Algebra.GroupWithZero.Nat
import Prose.Loops
import Mathlib.Data.List.Basic
/-!
# HostfsPages — page I/O of hostfs

`hostfs_read_pages` and `hostfs_write_pages`.  Both go through the vectors, and through each in requests of a bounded size.  A
request that fails ends the call, and so has no outcome here; nor has a loop that does not end in so many turns.
-/
namespace Prose
namespace Hostfs

open List

/-! ## Reading -/

/-- A vector on its way: what has come, and whether the host's file has ended. -/
structure Filling where
  come : List UInt8
  eof : Bool

/-- One turn of the inner loop; `host` answers a `FUSE_READ` by its offset and its size. -/
def fillTurn (maxRead : Nat) (host : Nat → Nat → Option (List UInt8)) (start length : Nat) (s : Filling) : Option Filling :=
  let chunk := min (length - s.come.length) maxRead
  if s.eof then some { s with come := s.come ++ replicate chunk 0 }
  else (host (start + s.come.length) chunk).map fun got =>
    { come := s.come ++ (got ++ replicate (chunk - got.length) 0), eof := got.length < chunk }

/-- The vectors behind so many bytes, and `done`. -/
def readVecs (n maxRead : Nat) (host : Nat → Nat → Option (List UInt8)) (pos requested : Nat) :
    List (List UInt8) → Nat → Bool → Option (List (List UInt8) × Nat)
  | [], done, _          => some ([], done)
  | vec :: vecs, done, eof =>
    if done < requested then do
      let length := min vec.length (requested - done)
      let s ← Loops.whileDo (fun s => s.come.length < length) (fillTurn maxRead host (pos + done) length) n ⟨[], eof⟩
      let (vecs, done) ← readVecs n maxRead host pos requested vecs (done + s.come.length) s.eof
      pure ((s.come ++ vec.drop length) :: vecs, done)
    else some (vec :: vecs, done)

/-- `hostfs_read_pages`: the vectors, and `*_numBytes`. -/
def readPages (n maxRead : Nat) (host : Nat → Nat → Option (List UInt8)) (pos : Nat) (vecs : List (List UInt8)) (requested : Nat) :
    Option (List (List UInt8) × Nat) :=
  readVecs n maxRead host pos requested vecs 0 false

/-- The host answers with the file's bytes, and short only at its end. -/
def HostReads (file : List UInt8) (host : Nat → Nat → Option (List UInt8)) : Prop :=
  ∀ offset size got, host offset size = some got → got.length ≤ size ∧ got = (file.drop offset).take got.length ∧
    (got.length < size → file.length ≤ offset + got.length)

def pageBytes (file : List UInt8) (pos n : Nat) : List UInt8 := (range' pos n).map (file.getD · 0)

theorem length_pageBytes (file : List UInt8) (pos n : Nat) : (pageBytes file pos n).length = n := by
  rw [pageBytes, length_map, length_range']

theorem pageBytes_add (file : List UInt8) (pos m n : Nat) :
    pageBytes file pos (m + n) = pageBytes file pos m ++ pageBytes file (pos + m) n := by
  rw [pageBytes, pageBytes, pageBytes, ← map_append, range'_append_1]

theorem pageBytes_end {file : List UInt8} {pos : Nat} (h : file.length ≤ pos) (n : Nat) : pageBytes file pos n = replicate n 0 := by
  refine eq_replicate_iff.2 ⟨length_pageBytes file pos n, fun b hb => ?_⟩
  obtain ⟨i, hi, rfl⟩ := mem_map.1 hb
  obtain ⟨j, -, rfl⟩ := mem_range'.1 hi
  rw [getD_eq_getElem?_getD, getElem?_eq_none (by omega)]
  rfl

theorem take_drop_eq {file : List UInt8} {pos n : Nat} (h : ((file.drop pos).take n).length = n) :
    (file.drop pos).take n = pageBytes file pos n := by
  rw [length_take, length_drop] at h
  refine ext_getElem (by rw [length_pageBytes, length_take, length_drop, h]) fun i h1 _ => ?_
  rw [length_take, length_drop] at h1
  have hi : pos + i < file.length := by omega
  simp [pageBytes, getElem_take, getElem_drop, getElem?_eq_getElem hi]

/-- **What a read leaves behind the bytes before it.** -/
structure Filled (file : List UInt8) (start length : Nat) (s : Filling) : Prop where
  bytes : s.come = pageBytes file start s.come.length
  le : s.come.length ≤ length
  ended : s.eof = true → file.length ≤ start + s.come.length

theorem Filled.append {file : List UInt8} {start length chunk : Nat} {s : Filling} (h : Filled file start length s)
    (hchunk : s.come.length + chunk ≤ length) {eof : Bool} (heof : eof = true → file.length ≤ start + (s.come.length + chunk)) :
    Filled file start length ⟨s.come ++ pageBytes file (start + s.come.length) chunk, eof⟩ := by
  have hlen : (s.come ++ pageBytes file (start + s.come.length) chunk).length = s.come.length + chunk := by
    rw [length_append, length_pageBytes]
  refine ⟨?_, by rwa [hlen], by rwa [hlen]⟩
  show s.come ++ _ = pageBytes file start (s.come ++ _).length
  rw [hlen, pageBytes_add, ← h.bytes]

section
variable {file : List UInt8} {host : Nat → Nat → Option (List UInt8)} (hhost : HostReads file host)
include hhost

theorem fillTurn_filled {maxRead start length : Nat} {s s' : Filling} (h : Filled file start length s)
    (hs : fillTurn maxRead host start length s = some s') : Filled file start length s' := by
  have hle := h.le
  unfold fillTurn at hs
  dsimp only at hs
  split at hs
  · rename_i heof
    cases hs
    rw [← pageBytes_end (h.ended heof)]
    refine h.append (by omega) fun _ => ?_
    have := h.ended heof
    omega
  · obtain ⟨got, hgot, rfl⟩ := Option.map_eq_some_iff.1 hs
    obtain ⟨hlen, hbytes, hshort⟩ := hhost _ _ _ hgot
    generalize hchunk : min (length - s.come.length) maxRead = chunk at *
    have hgot' : got ++ replicate (chunk - got.length) 0 = pageBytes file (start + s.come.length) chunk := by
      obtain ⟨rest, rfl⟩ := Nat.exists_eq_add_of_le hlen
      rw [pageBytes_add, ← take_drop_eq (by rw [← hbytes]), ← hbytes, Nat.add_sub_cancel_left]
      by_cases hrest : rest = 0
      · rw [hrest]
        rfl
      · rw [pageBytes_end (hshort (by omega))]
    rw [hgot']
    refine h.append (by omega) fun heof => ?_
    have := hshort (of_decide_eq_true heof)
    omega

/-- **The vectors have what the file has from there on**, by induction on them; the flag stands for the end of the file. -/
theorem readVecs_filled {n maxRead pos requested : Nat} : ∀ {vecs : List (List UInt8)} {done : Nat} {eof : Bool}
    {vecs' : List (List UInt8)} {done' : Nat}, (eof = true → file.length ≤ pos + done) → done ≤ requested →
    readVecs n maxRead host pos requested vecs done eof = some (vecs', done') →
    done' = done + min (requested - done) vecs.flatten.length ∧ vecs'.map length = vecs.map length ∧
      vecs'.flatten = pageBytes file (pos + done) (done' - done) ++ vecs.flatten.drop (done' - done)
  | [], done, eof, vecs', done', _, _, h => by
    cases h
    rw [Nat.sub_self]
    exact ⟨by simp, rfl, rfl⟩
  | vec :: vecs, done, eof, vecs', done', heof, hle, h => by
    unfold readVecs at h
    split at h
    · obtain ⟨s, hs, h⟩ := Option.bind_eq_some_iff.1 h
      obtain ⟨⟨rest, done''⟩, hrest, h⟩ := Option.bind_eq_some_iff.1 h
      cases h
      obtain ⟨hfilled, hend⟩ := Loops.whileDo_inv (Filled file (pos + done) _) (fun _ _ hi _ ht => fillTurn_filled hhost hi ht)
        ⟨rfl, Nat.zero_le _, heof⟩ hs
      have hlen : s.come.length = min vec.length (requested - done) :=
        Nat.le_antisymm hfilled.le (Nat.le_of_not_lt (of_decide_eq_false hend))
      obtain ⟨hdone, hmap, hflat⟩ := readVecs_filled (fun he => by have := hfilled.ended he; omega) (by omega) hrest
      have hall : (vec :: vecs).flatten.length = vec.length + vecs.flatten.length := by rw [flatten_cons, length_append]
      have hnew : done' - done = s.come.length + (done' - (done + s.come.length)) := by omega
      refine ⟨by omega, ?_, ?_⟩
      · rw [map_cons, map_cons, hmap, length_append, length_drop, hlen]
        congr 1
        omega
      · rw [flatten_cons, hflat, flatten_cons, hnew, pageBytes_add, ← hfilled.bytes, Nat.add_assoc]
        by_cases hfull : vec.length ≤ requested - done
        · rw [Nat.min_eq_left hfull] at hlen
          rw [Nat.min_eq_left hfull, drop_length, append_nil, hlen, drop_append, Nat.add_sub_cancel_left,
            drop_eq_nil_of_le (Nat.le_add_right _ _), nil_append, append_assoc]
        · -- the request ends in this vector
          have hzero : done' - (done + s.come.length) = 0 := by omega
          rw [hzero, Nat.add_zero, hlen, Nat.min_eq_right (by omega), drop_append_of_le_length (by omega)]
          simp [pageBytes]
    · cases h
      have hzero : requested - done = 0 := by omega
      rw [hzero, Nat.zero_min, Nat.sub_self]
      exact ⟨rfl, rfl, rfl⟩

end

/-! ## Writing -/

/-- A vector on its way out: how far it is, the number of the next request, and what the host has taken, and where. -/
structure Sending where
  vecDone : Nat
  requests : Nat
  taken : List (Nat × List UInt8)

/-- One turn of the inner loop; `host` says how much of a request it writes. -/
def sendTurn (maxWrite : Nat) (host : Nat → Option Nat) (start length : Nat) (vec : List UInt8) (s : Sending) : Option Sending :=
  let chunk := min (length - s.vecDone) maxWrite
  match host s.requests with
  | none      => none
  | some size =>
    if size = 0 ∨ size > chunk then none
    else some ⟨s.vecDone + size, s.requests + 1, s.taken ++ [(start + s.vecDone, (vec.drop s.vecDone).take size)]⟩

def writeVecs (n maxWrite : Nat) (host : Nat → Option Nat) (pos toWrite : Nat) :
    List (List UInt8) → Nat → Nat → List (Nat × List UInt8) → Option (List (Nat × List UInt8))
  | [], _, _, taken                 => some taken
  | vec :: vecs, done, requests, taken =>
    if done < toWrite then do
      let length := min vec.length (toWrite - done)
      let s ← Loops.whileDo (fun s => s.vecDone < length) (sendTurn maxWrite host (pos + done) length vec) n ⟨0, requests, taken⟩
      writeVecs n maxWrite host pos toWrite vecs (done + s.vecDone) s.requests s.taken
    else some taken

/-- What of a request is inside the file; a length from 2^63 on is negative in the comparison, and remains. -/
def toWrite (pos size requested : Nat) : Nat :=
  if pos ≥ size then 0 else if requested < 2 ^ 63 then min requested (size - pos) else requested

/-- `hostfs_write_pages`, of a file of so many bytes: `*_numBytes`, and what the host has taken. -/
def writePages (n maxWrite : Nat) (host : Nat → Option Nat) (pos size : Nat) (vecs : List (List UInt8)) (requested : Nat) :
    Option (Nat × List (Nat × List UInt8)) :=
  if toWrite pos size requested = 0 then some (requested, [])
  else (writeVecs n maxWrite host pos (toWrite pos size requested) vecs 0 0 []).map (requested, ·)

def placed (taken : List (Nat × List UInt8)) : List (UInt8 × Nat) := taken.flatMap fun t => t.2.zipIdx t.1

theorem sendTurn_placed {maxWrite start length : Nat} {host : Nat → Option Nat} {vec : List UInt8} (hvec : length ≤ vec.length)
    {before : List (UInt8 × Nat)} {s s' : Sending} (hle : s.vecDone ≤ length)
    (h : placed s.taken = before ++ (vec.take s.vecDone).zipIdx start) (hs : sendTurn maxWrite host start length vec s = some s') :
    s'.vecDone ≤ length ∧ placed s'.taken = before ++ (vec.take s'.vecDone).zipIdx start := by
  unfold sendTurn at hs
  dsimp only at hs
  split at hs
  · cases hs
  rename_i size hsize
  split at hs
  · cases hs
  rename_i hok
  cases hs
  refine ⟨show s.vecDone + size ≤ length by omega, ?_⟩
  have hlen : (vec.take s.vecDone).length = s.vecDone := by
    rw [length_take]
    omega
  show placed (s.taken ++ _) = before ++ (vec.take (s.vecDone + size)).zipIdx start
  unfold placed at *
  rw [flatMap_append, h, take_add, zipIdx_append, hlen, append_assoc]
  simp

/-- **Every byte of the vectors goes to its place**, by induction on them. -/
theorem writeVecs_placed {n maxWrite pos toWrite : Nat} {host : Nat → Option Nat} : ∀ {vecs : List (List UInt8)} {done requests : Nat}
    {taken taken' : List (Nat × List UInt8)}, writeVecs n maxWrite host pos toWrite vecs done requests taken = some taken' →
    placed taken' = placed taken ++ (vecs.flatten.take (toWrite - done)).zipIdx (pos + done)
  | [], done, requests, taken, taken', h => by
    cases h
    simp
  | vec :: vecs, done, requests, taken, taken', h => by
    unfold writeVecs at h
    split at h
    · obtain ⟨s, hs, h⟩ := Option.bind_eq_some_iff.1 h
      obtain ⟨⟨hle, hplaced⟩, hend⟩ := Loops.whileDo_inv (fun s => s.vecDone ≤ min vec.length (toWrite - done) ∧
          placed s.taken = placed taken ++ (vec.take s.vecDone).zipIdx (pos + done))
        (fun _ _ hi _ ht => sendTurn_placed (Nat.min_le_left _ _) hi.1 hi.2 ht) ⟨Nat.zero_le _, by simp⟩ hs
      have hlen : s.vecDone = min vec.length (toWrite - done) := Nat.le_antisymm hle (Nat.le_of_not_lt (of_decide_eq_false hend))
      rw [writeVecs_placed h, hplaced, append_assoc, flatten_cons]
      congr 1
      by_cases hfull : vec.length ≤ toWrite - done
      · rw [Nat.min_eq_left hfull] at hlen
        rw [take_append, zipIdx_append, hlen, take_of_length_le hfull, take_length, Nat.sub_sub, Nat.add_assoc]
      · have hzero : toWrite - (done + s.vecDone) = 0 := by omega
        rw [hzero, take_zero, zipIdx_nil, append_nil, hlen, Nat.min_eq_right (by omega), take_append_of_le_length (by omega)]
    · cases h
      have hzero : toWrite - done = 0 := by omega
      rw [hzero, take_zero, zipIdx_nil, append_nil]

end Hostfs
end Prose
