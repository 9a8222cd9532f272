import Mathlib.Data.List.TakeWhile
import Prose.Chunks
import Prose.Decimals
import Prose.Scan
/-!
# ClangdLsp — the framing between clangd_server and clangd

The reader thread of `LspSession` in `lsp.cpp`: what it reads comes in pieces, the accumulator `fInBuf` holds what has not
made a whole frame yet, and each whole frame's body is handed to `HandleDocument`.
-/
namespace Prose
namespace Clangd

open List

abbrev Bytes := List UInt8

/-! ## The functions of the C library and of `BString` -/

def toLower (c : UInt8) : UInt8 := if 65 ≤ c && c ≤ 90 then c + 32 else c

/-- `isspace`. -/
def isSpace (c : UInt8) : Bool := c = 32 || (9 ≤ c && c ≤ 13)

/-- `atoll`; what does not fit in 64 bits is cut at their ends. -/
def atoll (s : Bytes) : Int :=
  let number (s : Bytes) : Int := Decimals.value (s.takeWhile Decimals.isDigit)
  let n := match s.dropWhile isSpace with
    | 45 :: s => -number s
    | 43 :: s => number s
    | s       => number s
  max (-9223372036854775808) (min 9223372036854775807 n)

/-- `BString::FindFirst`. -/
def findFirst (pattern : Bytes) : Bytes → Option Nat
  | []     => if pattern = [] then some 0 else none
  | c :: s => if pattern.isPrefixOf (c :: s) then some 0 else (findFirst pattern s).map (· + 1)

/-- `BString::Append` takes what stands before a NUL. -/
def append (s buf : Bytes) : Bytes := s ++ buf.takeWhile (· ≠ 0)

/-! ## The reader -/

def kMaxFrame : Nat := 16 * 1024 * 1024

/-- `"\r\n"` -/
def crlf : Bytes := [13, 10]

/-- `"Content-Length:"` in small letters. -/
def contentLengthName : Bytes := [99, 111, 110, 116, 101, 110, 116, 45, 108, 101, 110, 103, 116, 104, 58]

def contentLength (head : Bytes) : Int :=
  if (head.take 15).map toLower = contentLengthName then atoll (head.drop 15) else -1

/-- Cuts the whole frames out of the accumulator: the documents, and what is kept. -/
def pumpReader (fInBuf : Bytes) : List Bytes × Bytes :=
  match findFirst (crlf ++ crlf) fInBuf with
  | none => ([], fInBuf)
  | some headEnd =>
    let head := fInBuf.take ((findFirst crlf fInBuf).getD 0)
    let length := contentLength head
    if length < 0 ∨ (kMaxFrame : Int) < length then ([], [])
    else
      let bodyStart := headEnd + 4
      if _h : fInBuf.length < bodyStart + length.toNat then ([], fInBuf)
      else
        let body := (fInBuf.drop bodyStart).take length.toNat
        let more := pumpReader (fInBuf.drop (bodyStart + length.toNat))
        (body :: more.1, more.2)
termination_by fInBuf.length
decreasing_by
  rw [length_drop]
  omega

structure LspSession where
  fInBuf : Bytes := []
  /-- What has been handed to `HandleDocument`. -/
  handled : List Bytes := []
  fReaderGone : Bool := false

/-- The reader loop with what its `read` calls give, up to the one that waits. -/
def LspSession.readerLoop (s : LspSession) : List Bytes → LspSession
  | [] => s
  | buf :: reads =>
    if buf = [] then { s with fReaderGone := true }
    else
      let fInBuf := append s.fInBuf buf
      if kMaxFrame < fInBuf.length then { s with fInBuf := fInBuf, fReaderGone := true }
      else
        let (documents, kept) := pumpReader fInBuf
        { s with fInBuf := kept, handled := s.handled ++ documents }.readerLoop reads

/-- What `Send` writes. -/
def send (body : Bytes) : Bytes :=
  [67, 111, 110, 116, 101, 110, 116, 45, 76, 101, 110, 103, 116, 104, 58, 32] ++ Decimals.digits body.length ++ crlf ++
    crlf ++ body

/-! ## Frames -/

/-- A body behind a header that is one `Content-Length` field and says how long it is. -/
structure Frame where
  name : Bytes
  before : Bytes
  number : Bytes
  after : Bytes
  body : Bytes
  name_eq : name.map toLower = contentLengthName
  before_blank : ∀ c ∈ before, c = 32 ∨ c = 9
  number_ne : number ≠ []
  number_digits : ∀ c ∈ number, Decimals.isDigit c
  number_eq : Decimals.value number = body.length
  after_blank : ∀ c ∈ after, c = 32 ∨ c = 9
  body_noNul : ∀ c ∈ body, c ≠ 0

def Frame.header (f : Frame) : Bytes := f.name ++ (f.before ++ (f.number ++ f.after))

def Frame.bytes (f : Frame) : Bytes := f.header ++ (crlf ++ crlf) ++ f.body

theorem frame_ne_nil (f : Frame) : f.bytes ≠ [] := by
  unfold Frame.bytes
  simp [crlf]

theorem name_char {name : Bytes} (h : name.map toLower = contentLengthName) : ∀ c ∈ name, c ≠ 13 ∧ c ≠ 0 := by
  intro c hc
  have hm : toLower c ∈ contentLengthName := h ▸ mem_map_of_mem hc
  constructor
  · rintro rfl
    revert hm
    decide
  · rintro rfl
    revert hm
    decide

theorem blank_char {s : Bytes} (h : ∀ c ∈ s, c = 32 ∨ c = 9) : ∀ c ∈ s, c ≠ 13 ∧ c ≠ 0 := by
  intro c hc
  rcases h c hc with rfl | rfl <;> decide

theorem digit_char {s : Bytes} (h : ∀ c ∈ s, Decimals.isDigit c) : ∀ c ∈ s, c ≠ 13 ∧ c ≠ 0 := by
  intro c hc
  have hd := h c hc
  constructor
  · rintro rfl
    exact absurd hd (by decide)
  · rintro rfl
    exact absurd hd (by decide)

theorem header_char (f : Frame) : ∀ c ∈ f.header, c ≠ 13 ∧ c ≠ 0 := by
  intro c hc
  rcases mem_append.1 hc with hc | hc
  · exact name_char f.name_eq c hc
  rcases mem_append.1 hc with hc | hc
  · exact blank_char f.before_blank c hc
  · rcases mem_append.1 hc with hc | hc
    · exact digit_char f.number_digits c hc
    · exact blank_char f.after_blank c hc

theorem bytes_noNul (f : Frame) : ∀ c ∈ f.bytes, c ≠ 0 := by
  intro c hc
  rcases mem_append.1 hc with hc | hc
  · rcases mem_append.1 hc with hc | hc
    · exact (header_char f c hc).2
    · have hd : ∀ c ∈ crlf ++ crlf, c ≠ 0 := by decide +kernel
      exact hd c hc
  · exact f.body_noNul c hc

/-! ## The search -/

theorem findFirst_append {c : UInt8} {p h : Bytes} (hh : ∀ x ∈ h, x ≠ c) (rest : Bytes) :
    findFirst (c :: p) (h ++ (c :: p ++ rest)) = some h.length := by
  induction h with
  | nil =>
    rw [nil_append, cons_append, findFirst, if_pos]
    · rfl
    · rw [← cons_append, isPrefixOf_iff_prefix]
      exact prefix_append _ _
  | cons x h ih =>
    rw [cons_append, findFirst, if_neg, ih (fun y hy => hh y (mem_cons_of_mem _ hy))]
    · rfl
    · rw [List.isPrefixOf_iff_prefix, cons_prefix_cons]
      exact fun hp => hh x mem_cons_self hp.1.symm

theorem findFirst_short {p : Bytes} : ∀ {s : Bytes}, s.length < p.length → findFirst p s = none
  | [], h => by
    rw [findFirst, if_neg]
    rintro rfl
    exact absurd h (Nat.lt_irrefl _)
  | c :: s, h => by
    have hs : s.length < p.length := Nat.lt_of_succ_lt h
    rw [findFirst, if_neg, findFirst_short hs]
    · rfl
    · rw [List.isPrefixOf_iff_prefix]
      exact fun hp => absurd hp.length_le (Nat.not_le.2 h)

theorem findFirst_partial {c : UInt8} {p : Bytes} : ∀ {h s more : Bytes}, (∀ x ∈ h, x ≠ c) → more ≠ [] →
    h ++ (c :: p) = s ++ more → findFirst (c :: p) s = none
  | [], s, more, _, hm, he => by
    rw [nil_append] at he
    refine findFirst_short ?_
    rw [he, length_append]
    have := length_pos_of_ne_nil hm
    omega
  | x :: h, [], more, _, _, _ => by rw [findFirst, if_neg (cons_ne_nil _ _)]
  | x :: h, y :: s, more, hh, hm, he => by
    rw [cons_append, cons_append, List.cons.injEq] at he
    obtain ⟨rfl, he⟩ := he
    rw [findFirst, if_neg, findFirst_partial (fun z hz => hh z (mem_cons_of_mem _ hz)) hm he]
    · rfl
    · rw [List.isPrefixOf_iff_prefix, cons_prefix_cons]
      exact fun hp => hh x mem_cons_self hp.1.symm

/-! ## A frame's header read -/

theorem dropWhile_blank {s : Bytes} (h : ∀ c ∈ s, c = 32 ∨ c = 9) (rest : Bytes) :
    (s ++ rest).dropWhile isSpace = rest.dropWhile isSpace := by
  refine dropWhile_append_of_pos (fun c hc => ?_)
  rcases h c hc with rfl | rfl <;> rfl

theorem atoll_number {before number after : Bytes} (hb : ∀ c ∈ before, c = 32 ∨ c = 9) (hne : number ≠ [])
    (hd : ∀ c ∈ number, Decimals.isDigit c) (ha : ∀ c ∈ after, c = 32 ∨ c = 9)
    (hv : Decimals.value number ≤ kMaxFrame) :
    atoll (before ++ (number ++ after)) = Decimals.value number := by
  have hk : kMaxFrame = 16777216 := rfl
  obtain ⟨d, ds, rfl⟩ := exists_cons_of_ne_nil hne
  have hd0 := hd d mem_cons_self
  have hdrop : (before ++ (d :: ds ++ after)).dropWhile isSpace = d :: ds ++ after := by
    rw [dropWhile_blank hb, cons_append, dropWhile_cons_of_neg]
    rw [Decimals.isDigit_iff] at hd0
    unfold isSpace
    simp only [Bool.or_eq_true, Bool.and_eq_true, decide_eq_true_eq, UInt8.le_iff_toNat_le, not_or]
    refine ⟨fun h => ?_, fun h => ?_⟩
    · rw [h] at hd0
      exact absurd hd0 (by decide)
    · exact absurd h.2 (by show ¬ d.toNat ≤ 13; omega)
  have htake : (d :: ds ++ after).takeWhile Decimals.isDigit = d :: ds := by
    refine (Scan.span_append hd (fun c hc => ?_)).1
    rcases ha c (mem_of_mem_head? hc) with rfl | rfl <;> rfl
  unfold atoll
  dsimp only
  rw [hdrop, cons_append]
  split
  · exact absurd hd0 (by rename_i he; rw [(List.cons.inj he).1]; decide)
  · exact absurd hd0 (by rename_i he; rw [(List.cons.inj he).1]; decide)
  · rw [← cons_append, htake]
    omega

theorem contentLength_header (f : Frame) (h : f.body.length ≤ kMaxFrame) : contentLength f.header = f.body.length := by
  have hlen : f.name.length = 15 := by
    rw [← length_map (f := toLower), f.name_eq]
    rfl
  unfold contentLength Frame.header
  rw [take_left' hlen, drop_left' hlen, if_pos f.name_eq,
    atoll_number f.before_blank f.number_ne f.number_digits f.after_blank (by rw [f.number_eq]; exact h), f.number_eq]

/-! ## The whole frames, and the rest -/

theorem pumpReader_header (f : Frame) (h : f.body.length ≤ kMaxFrame) (s : Bytes) :
    pumpReader (f.header ++ (crlf ++ crlf) ++ s) =
      if s.length < f.body.length then ([], f.header ++ (crlf ++ crlf) ++ s)
      else (s.take f.body.length :: (pumpReader (s.drop f.body.length)).1, (pumpReader (s.drop f.body.length)).2) := by
  have hcr : ∀ x ∈ f.header, x ≠ 13 := fun x hx => (header_char f x hx).1
  rw [append_assoc]
  have hfind : findFirst (crlf ++ crlf) (f.header ++ (crlf ++ crlf ++ s)) = some f.header.length :=
    findFirst_append (p := [10, 13, 10]) hcr s
  have hline : findFirst crlf (f.header ++ (crlf ++ crlf ++ s)) = some f.header.length :=
    findFirst_append (p := [10]) hcr (crlf ++ s)
  have hdrop : ∀ n, (f.header ++ (crlf ++ crlf ++ s)).drop (f.header.length + 4 + n) = s.drop n := by
    intro n
    rw [Nat.add_assoc, drop_length_add_append, ← drop_drop]
    rfl
  have hlen : (f.header ++ (crlf ++ crlf ++ s)).length = f.header.length + 4 + s.length := by
    rw [length_append, length_append, Nat.add_assoc]
    rfl
  rw [pumpReader, hfind]
  dsimp only
  rw [hline, Option.getD_some, take_left, contentLength_header f h, Int.toNat_natCast, if_neg (by omega), hlen, hdrop,
    ← Nat.add_zero (f.header.length + 4), hdrop, drop_zero]
  by_cases hs : s.length < f.body.length
  · rw [if_pos hs, dif_pos (by omega)]
  · rw [if_neg hs, dif_neg (by omega)]

/-- **A whole frame in front** is cut out. -/
theorem pumpReader_frame (f : Frame) (h : f.body.length ≤ kMaxFrame) (rest : Bytes) :
    pumpReader (f.bytes ++ rest) = (f.body :: (pumpReader rest).1, (pumpReader rest).2) := by
  unfold Frame.bytes
  rw [append_assoc, pumpReader_header f h, take_left, drop_left, if_neg]
  rw [length_append]
  omega

theorem pumpReader_tail {rest : List Frame} {tail : Bytes} (ht : Chunks.Tail Frame.bytes rest tail)
    (h : ∀ f ∈ rest, f.body.length ≤ kMaxFrame) : pumpReader tail = ([], tail) := by
  cases rest with
  | nil =>
    rw [show tail = [] from ht, pumpReader]
    rfl
  | cons f rest =>
    obtain ⟨more, hne, hf⟩ := ht
    rcases append_eq_append_iff.1 hf with ⟨s, rfl, hs⟩ | ⟨behind, hhead, hmore⟩
    · -- the header has come, and not all of the body
      rw [pumpReader_header f (h f mem_cons_self), if_pos]
      rw [hs, length_append]
      have := length_pos_of_ne_nil hne
      omega
    rcases eq_or_ne behind [] with rfl | hb
    · -- the header has come, and nothing of the body
      rw [append_nil] at hhead
      rw [nil_append] at hmore
      rw [← hhead, ← append_nil (f.header ++ (crlf ++ crlf)), pumpReader_header f (h f mem_cons_self), if_pos]
      rw [← hmore]
      exact length_pos_of_ne_nil hne
    · have hfind : findFirst (crlf ++ crlf) tail = none :=
        findFirst_partial (p := [10, 13, 10]) (fun x hx => (header_char f x hx).1) hb hhead
      rw [pumpReader, hfind]

theorem pumpReader_split : ∀ (done : List Frame) {rest : List Frame} {tail : Bytes},
    Chunks.Tail Frame.bytes rest tail → (∀ f ∈ done ++ rest, f.body.length ≤ kMaxFrame) →
      pumpReader (done.flatMap Frame.bytes ++ tail) = (done.map Frame.body, tail)
  | [], rest, tail, ht, h => pumpReader_tail ht h
  | f :: done, rest, tail, ht, h => by
    rw [flatMap_cons, append_assoc, pumpReader_frame f (h f mem_cons_self),
      pumpReader_split done ht (fun g hg => h g (mem_cons_of_mem _ hg))]
    rfl

theorem append_noNul {s buf : Bytes} (h : ∀ c ∈ buf, c ≠ 0) : append s buf = s ++ buf := by
  unfold append
  rw [takeWhile_eq_self_iff.2 (fun c hc => decide_eq_true (h c hc))]

theorem readerLoop_split : ∀ (reads : List Bytes) (s : LspSession) {rest : List Frame},
    Chunks.Tail Frame.bytes rest s.fInBuf → (rest.flatMap Frame.bytes).length ≤ kMaxFrame → (∀ buf ∈ reads, buf ≠ []) →
    s.fInBuf ++ reads.flatten <+: rest.flatMap Frame.bytes →
      ∃ done rest' tail, rest = done ++ rest' ∧ s.fInBuf ++ reads.flatten = done.flatMap Frame.bytes ++ tail ∧
        Chunks.Tail Frame.bytes rest' tail ∧
        s.readerLoop reads = { s with fInBuf := tail, handled := s.handled ++ done.map Frame.body }
  | [], s, rest, ht, _, _, _ => by
    refine ⟨[], rest, s.fInBuf, rfl, ?_, ht, ?_⟩
    · rw [flatten_nil, append_nil]
      rfl
    · rw [map_nil, append_nil]
      rfl
  | buf :: reads, s, rest, ht, hlimit, hne, hpre => by
    rw [flatten_cons, ← append_assoc] at hpre
    have hin := (prefix_append (s.fInBuf ++ buf) _).trans hpre
    obtain ⟨done, rest', tail, rfl, hdone, ht'⟩ := Chunks.exists_split frame_ne_nil rest _ hin
    have hbody : ∀ f ∈ done ++ rest', f.body.length ≤ kMaxFrame := fun f hf => by
      have hle := (sublist_flatten_of_mem (mem_map_of_mem (f := Frame.bytes) hf)).length_le
      have hb : f.body.length ≤ f.bytes.length := by
        unfold Frame.bytes
        rw [length_append]
        omega
      exact Nat.le_trans hb (Nat.le_trans hle hlimit)
    have hnul : ∀ c ∈ buf, c ≠ 0 := fun c hc => by
      obtain ⟨f, -, hf⟩ := mem_flatMap.1 (hin.subset (mem_append_right _ hc))
      exact bytes_noNul f c hf
    have hstep : s.readerLoop (buf :: reads) =
        { s with fInBuf := tail, handled := s.handled ++ done.map Frame.body }.readerLoop reads := by
      rw [LspSession.readerLoop, if_neg (hne buf mem_cons_self), append_noNul hnul,
        if_neg (Nat.not_lt.2 (Nat.le_trans hin.length_le hlimit)), hdone, pumpReader_split done ht' hbody]
    rw [flatMap_append] at hpre hlimit
    rw [hdone, append_assoc, prefix_append_right_inj] at hpre
    rw [length_append] at hlimit
    obtain ⟨done', rest'', tail', rfl, hdone', ht'', hrun⟩ := readerLoop_split reads
      { s with fInBuf := tail, handled := s.handled ++ done.map Frame.body } ht' (by omega)
      (fun b hb => hne b (mem_cons_of_mem _ hb)) hpre
    refine ⟨done ++ done', rest'', tail', (append_assoc _ _ _).symm, ?_, ht'', ?_⟩
    · rw [flatten_cons, ← append_assoc, hdone, append_assoc, hdone', flatMap_append, append_assoc]
    · rw [hstep, hrun, map_append, append_assoc]

/-- **Framing does not depend on the pieces.**  However the frames come, the bodies of those that have come whole are
handed on, each once and in order, and what has come of the next is kept. -/
theorem readerLoop_frames (frames : List Frame) (hlimit : (frames.flatMap Frame.bytes).length ≤ kMaxFrame)
    (reads : List Bytes) (hne : ∀ buf ∈ reads, buf ≠ []) (hpre : reads.flatten <+: frames.flatMap Frame.bytes) :
    ∃ done rest tail, frames = done ++ rest ∧ reads.flatten = done.flatMap Frame.bytes ++ tail ∧
      Chunks.Tail Frame.bytes rest tail ∧
      ({} : LspSession).readerLoop reads = { fInBuf := tail, handled := done.map Frame.body } ∧
      (reads.flatten = frames.flatMap Frame.bytes →
        ({} : LspSession).readerLoop reads = { fInBuf := [], handled := frames.map Frame.body }) := by
  obtain ⟨done, rest, tail, rfl, hdone, ht, hrun⟩ :=
    readerLoop_split reads {} (Chunks.tail_nil frame_ne_nil frames) hlimit hne hpre
  refine ⟨done, rest, tail, rfl, hdone, ht, hrun, fun hall => ?_⟩
  obtain ⟨rfl, rfl⟩ := Chunks.all_of_flatMap_eq ht (hall.symm.trans hdone)
  rw [append_nil]
  exact hrun

/-- `{}` in a frame. -/
def emptyObject : Frame where
  name := [67, 111, 110, 116, 101, 110, 116, 45, 76, 101, 110, 103, 116, 104, 58]
  before := [32]
  number := [50]
  after := []
  body := [123, 125]
  name_eq := by decide
  before_blank := by decide +kernel
  number_ne := by decide
  number_digits := by decide +kernel
  number_eq := by decide
  after_blank := by decide +kernel
  body_noNul := by decide +kernel

/-- Two frames, cut behind the first's header and a byte of its body. -/
theorem readerLoop_frames_twice :
    ({} : LspSession).readerLoop [(emptyObject.bytes ++ emptyObject.bytes).take 22,
      (emptyObject.bytes ++ emptyObject.bytes).drop 22] = { fInBuf := [], handled := [[123, 125], [123, 125]] } := by
  obtain ⟨_, _, _, _, _, _, _, hall⟩ := readerLoop_frames [emptyObject, emptyObject] (by decide)
    [(emptyObject.bytes ++ emptyObject.bytes).take 22, (emptyObject.bytes ++ emptyObject.bytes).drop 22] (by decide)
    (by decide)
  exact hall (by decide)

theorem send_framed (body : Bytes) (h : ∀ c ∈ body, c ≠ 0) : ∃ f : Frame, f.bytes = send body ∧ f.body = body := by
  refine ⟨⟨[67, 111, 110, 116, 101, 110, 116, 45, 76, 101, 110, 103, 116, 104, 58], [32], Decimals.digits body.length, [], body,
    by decide, by decide +kernel, Decimals.digits_ne_nil _, Decimals.isDigit_digits _, Decimals.value_digits _,
    fun _ hc => (nomatch hc), h⟩, ?_, rfl⟩
  unfold Frame.bytes Frame.header send
  simp

end Clangd
end Prose
