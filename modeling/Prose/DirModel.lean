import Prose.Bytes
import Prose.Loops
/-!
# DirModel — reading a hostfs directory

`for_each_dir_record`, `dir_fetch` and `hostfs_read_dir` of `kernel_interface.cpp`.  A reply is the bytes the host sent, and its
length that of `cookie->length`; a byte outside it has no value, so whoever reads one has no outcome.  The host answers a
request by its number and its offset, or fails.
-/
namespace Prose
namespace HostfsDir

open Bytes (slice natAt)

/-- `FUSE_REC_ALIGN`. -/
def align (x : Nat) : Nat := (x + 7) / 8 * 8

/-- `FUSE_NAME_OFFSET`, or `FUSE_NAME_OFFSET_DIRENTPLUS`. -/
def nameOffset (plus : Bool) : Nat := if plus then 152 else 24

/-- `B_FILE_NAME_LENGTH`. -/
def fileNameLength : Nat := 256

/-- A `fuse_entry_out` the host counts. -/
structure Lookup where
  nodeid : Nat
  out : List UInt8
  deriving DecidableEq

/-- A `fuse_dirent`, where its name is, and how far it is to the next. -/
structure Record where
  lookup : Option Lookup
  ino : Nat
  off : Nat
  namelen : Nat
  nameAt : Nat
  size : Nat

def lookupAt (b : List UInt8) (plus : Bool) (pos : Nat) : Option (Option Lookup) :=
  if plus then
    (natAt b pos 8).bind fun nodeid => if nodeid ≠ 0 then (slice b pos 128).map fun out => some ⟨nodeid, out⟩ else some none
  else some none

/-- The record there; the `fuse_dirent` ends where its name begins. -/
def record (b : List UInt8) (plus : Bool) (pos : Nat) : Option Record := do
  let lookup ← lookupAt b plus pos
  let ino ← natAt b (pos + nameOffset plus - 24) 8
  let off ← natAt b (pos + nameOffset plus - 16) 8
  let namelen ← natAt b (pos + nameOffset plus - 8) 4
  pure ⟨lookup, ino, off, namelen, pos + nameOffset plus, align (nameOffset plus + namelen)⟩

/-- Where `for_each_dir_record` has come to. -/
structure Walk (σ : Type) where
  wellFormed : Bool
  position : Nat
  state : σ

theorem align_le (x : Nat) : x ≤ align x := by
  unfold align
  omega

theorem nameOffset_pos (plus : Bool) : 24 ≤ nameOffset plus := by
  unfold nameOffset
  split <;> omega

theorem record_size {b : List UInt8} {plus : Bool} {pos : Nat} {r : Record} (h : record b plus pos = some r) :
    r.nameAt = pos + nameOffset plus ∧ r.size = align (nameOffset plus + r.namelen) := by
  unfold record at h
  obtain ⟨lookup, -, h⟩ := Option.bind_eq_some_iff.1 h
  obtain ⟨ino, -, h⟩ := Option.bind_eq_some_iff.1 h
  obtain ⟨off, -, h⟩ := Option.bind_eq_some_iff.1 h
  obtain ⟨namelen, -, h⟩ := Option.bind_eq_some_iff.1 h
  cases h
  exact ⟨rfl, rfl⟩

/-- `for_each_dir_record`; the callback says whether to go on. -/
def forEachDirRecord {σ : Type} (b : List UInt8) (plus : Bool) (callback : Record → σ → Option (σ × Bool)) (pos : Nat) (s : σ) :
    Option (Walk σ) :=
  if pos < b.length then
    if b.length < pos + nameOffset plus then some ⟨false, pos, s⟩
    else
      match _h : record b plus pos with
      | none => none
      | some r =>
        if b.length < pos + r.size then some ⟨false, pos, s⟩
        else
          match callback r s with
          | none => none
          | some (s, false) => some ⟨true, pos, s⟩
          | some (s, true) => forEachDirRecord b plus callback (pos + r.size) s
  else some ⟨true, pos, s⟩
termination_by b.length - pos
decreasing_by
  have := (record_size (by assumption)).2
  have := align_le (nameOffset plus + r.namelen)
  have := nameOffset_pos plus
  omega

/-- `is_usable_name`. -/
def isUsableName (namelen : Nat) : Bool := 0 < namelen && namelen < fileNameLength

/-- `is_dot_or_dotdot`, of a name. -/
def isDotOrDotdot (name : List UInt8) : Bool := name == [46] || name == [46, 46]

structure Directory where
  volume : Nat
  nodeid : Nat
  plus : Bool

/-- `struct dirent`. -/
structure Dirent where
  dev : Nat
  pdev : Nat
  ino : Nat
  pino : Nat
  reclen : Nat
  name : List UInt8
  deriving DecidableEq

/-- A call of `read_dir`: the buffer's size, `*_num`, and `ParentOf(node)` meanwhile (0: none). -/
structure Call where
  size : Nat
  count : Nat
  parent : Nat := 0

/-- What the record of a name takes: `ROUNDUP(offsetof(struct dirent, d_name) + namelen + 1, 8)`. -/
def recordLength (namelen : Nat) : Nat := (26 + namelen + 1 + 7) / 8 * 8

def dirent (d : Directory) (call : Call) (lookup : Option Lookup) (ino : Nat) (name : List UInt8) : Dirent where
  dev := d.volume
  pdev := d.volume
  pino := d.nodeid
  reclen := recordLength name.length
  name := name
  ino :=
    if isDotOrDotdot name then if name.length = 2 ∧ call.parent ≠ 0 then call.parent else d.nodeid
    else match lookup with
      | some lookup => lookup.nodeid
      | none => ino

/-- What `dir_fetch` does with the lookup of an entry. -/
inductive Noted
  | forget (nodeid : Nat)
  | acquire (lookup : Lookup) (name : List UInt8)
  deriving DecidableEq

/-- A `DirCookie`; the buffer is as long as its `length`.  How many requests there were nobody knows but the host. -/
structure Cookie where
  offset : Nat := 0
  buffer : List UInt8 := []
  position : Nat := 0
  eof : Bool := false
  asked : Nat := 0
  deriving DecidableEq

/-- What `hostfs_read_dir` keeps while it runs. -/
structure Loop where
  cookie : Cookie
  count : Nat := 0
  space : Nat
  overflow : Bool := false
  out : List Dirent := []
  noted : List Noted := []

inductive Status
  | ok
  | bufferOverflow
  | failed
  deriving DecidableEq

structure Result where
  status : Status
  entries : List Dirent
  cookie : Cookie
  noted : List Noted
  deriving DecidableEq

section
variable (d : Directory) (call : Call)

/-- The callback of `hostfs_read_dir`. -/
def give (b : List UInt8) (r : Record) (s : Loop) : Option (Loop × Bool) :=
  if call.count ≤ s.count then some (s, false)
  else if isUsableName r.namelen = false then some ({ s with cookie := { s.cookie with offset := r.off } }, true)
  else if s.space < recordLength r.namelen then some ({ s with overflow := true }, false)
  else do
    let name ← slice b r.nameAt r.namelen
    pure ({ s with
      cookie := { s.cookie with offset := r.off }
      count := s.count + 1
      space := s.space - recordLength r.namelen
      out := s.out ++ [dirent d call r.lookup r.ino name] }, true)

/-- The callback of `dir_fetch`: a name it looks at is no longer than the record. -/
def note (b : List UInt8) (r : Record) (noted : List Noted) : Option (List Noted × Bool) :=
  match r.lookup with
  | none => some (noted, true)
  | some lookup => do
    let name ← slice b r.nameAt r.namelen
    if isDotOrDotdot name then pure (noted, true)
    else if isUsableName r.namelen then pure (noted ++ [.acquire lookup name], true)
    else pure (noted ++ [.forget lookup.nodeid], true)

def finish (s : Loop) : Result :=
  if s.overflow = true ∧ s.count = 0 then ⟨.bufferOverflow, [], s.cookie, s.noted⟩ else ⟨.ok, s.out, s.cookie, s.noted⟩

def walk (s : Loop) : Option (Loop ⊕ Result) := do
  let w ← forEachDirRecord s.cookie.buffer d.plus (give d call s.cookie.buffer) s.cookie.position s
  if w.wellFormed then pure (.inl { w.state with cookie := { w.state.cookie with position := w.position } })
  else
    pure (.inr (finish { w.state with
      cookie := { w.state.cookie with position := w.position, eof := true, buffer := [] } }))

/-- `dir_fetch`, with what the host has sent. -/
def dirFetch (b : List UInt8) (s : Loop) : Option Loop := do
  let cookie : Cookie := { s.cookie with buffer := b, position := 0, eof := s.cookie.eof || b.isEmpty, asked := s.cookie.asked + 1 }
  if d.plus = true ∧ b ≠ [] then do
    let w ← forEachDirRecord b true (note b) 0 s.noted
    pure { s with cookie, noted := w.state }
  else pure { s with cookie }

/-- One round of the loop of `hostfs_read_dir`. -/
def round (host : Nat → Nat → Option (List UInt8)) (s : Loop) : Option (Loop ⊕ Result) :=
  if s.count < call.count ∧ s.overflow = false then
    if s.cookie.buffer.length ≤ s.cookie.position then
      if s.cookie.eof then some (.inr (finish s))
      else
        match host s.cookie.asked s.cookie.offset with
        | none =>
          let s := { s with cookie := { s.cookie with asked := s.cookie.asked + 1 } }
          if 0 < s.count then some (.inr (finish s)) else some (.inr ⟨.failed, [], s.cookie, s.noted⟩)
        | some b => do
          let s ← dirFetch d b s
          if s.cookie.eof then pure (.inr (finish s)) else walk d call s
    else walk d call s
  else some (.inr (finish s))

def start (c : Cookie) : Loop := { cookie := c, space := call.size }

/-- `hostfs_read_dir` returns. -/
def Returns (host : Nat → Nat → Option (List UInt8)) (c : Cookie) (r : Result) : Prop :=
  ∃ fuel, Loops.loop (round d call host) fuel (start call c) = some r

end

def Calls (d : Directory) (host : Nat → Nat → Option (List UInt8)) : Cookie → List (Call × Result) → Prop
  | _, [] => True
  | c, (call, r) :: rest => Returns d call host c r ∧ Calls d host r.cookie rest

/-! ## A host's listing -/

structure Entry where
  out : List UInt8
  ino : UInt64
  off : UInt64
  kind : UInt32
  name : List UInt8
  pad : List UInt8
  out_length : out.length = 128
  name_lt : name.length < 4294967296
  pad_length : 24 + name.length + pad.length = align (24 + name.length)

namespace Entry

def bytes (plus : Bool) (e : Entry) : List UInt8 :=
  (if plus then e.out else []) ++ (Bytes.le 8 e.ino.toNat ++ (Bytes.le 8 e.off.toNat ++
    (Bytes.le 4 e.name.length ++ (Bytes.le 4 e.kind.toNat ++ (e.name ++ e.pad)))))

def lookup (plus : Bool) (e : Entry) : Option Lookup :=
  if plus = true ∧ Bytes.nat (e.out.take 8) ≠ 0 then some ⟨Bytes.nat (e.out.take 8), e.out⟩ else none

def usable (e : Entry) : Bool := isUsableName e.name.length

def given (d : Directory) (call : Call) (e : Entry) : Dirent := dirent d call (e.lookup d.plus) e.ino.toNat e.name

end Entry

/-- A listing, and where an offset resumes it: 0 at the beginning, and that of a record after it. -/
structure Listing where
  entries : List Entry
  resume : Nat → Nat
  start : resume 0 = 0
  after : ∀ i e, entries[i]? = some e → resume e.off.toNat = i + 1

/-- **A host that answers with consecutive batches of the listing**, or fails; no batch is empty but behind the last entry. -/
def Batches (plus : Bool) (l : Listing) (host : Nat → Nat → Option (List UInt8)) : Prop :=
  ∀ n offset b, l.resume offset ≤ l.entries.length → host n offset = some b →
    ∃ batch rest, l.entries.drop (l.resume offset) = batch ++ rest ∧ b = batch.flatMap (Entry.bytes plus) ∧
      (batch = [] → rest = [])

end HostfsDir
end Prose
