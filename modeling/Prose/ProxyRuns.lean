import Prose.ProxyRelay
/-!
# ProxyRuns — what each end gets

While the relays run, what has gone to the peer and what a relay holds is what was received behind the head, and the same the other way.
A run that meets the condition cancels a connection only when nothing more is to come from either end.
-/
namespace Prose
namespace Proxy

open List

/-! ## The blank line, while the head is read -/

theorem blank_append (a b : Bytes) (h : 4 ≤ a.length) : blank (a ++ b) = blank a := by
  unfold blank
  rw [take_append_of_le_length h]

theorem blank_le (b : Bytes) (h : blank b = true) : 4 ≤ b.length := by
  have hfour : (utf8 (crlf ++ crlf)).length = 4 := rfl
  rw [← of_decide_eq_true h, length_take] at hfour
  omega

theorem first_more {a : Bytes} {i : Nat} (b : Bytes) (h : Matching.first blank a = some i) : Matching.first blank (a ++ b) = some i :=
  Matching.first_append blank_append b h (Matching.first_le blank_le h)

theorem End.eq_or (e x : End) : x = e ∨ x = e.other := by
  cases e <;> cases x <;> decide

namespace Client

theorem setConn_self (s : Client) (e : End) (c : Connection) : (s.setConn e c).conn e = c := Function.update_self ..
theorem setConn_other (s : Client) (e : End) (c : Connection) : (s.setConn e c).conn e.other = s.conn e.other :=
  Function.update_of_ne (by cases e <;> decide) ..
theorem setRelay_self (s : Client) (e : End) (r : Relay) : (s.setRelay e r).relay e = r := Function.update_self ..
theorem setRelay_other (s : Client) (e : End) (r : Relay) : (s.setRelay e r).relay e.other = s.relay e.other :=
  Function.update_of_ne (by cases e <;> decide) ..

/-! ## What holds -/

def before : Verdict → End → Bytes
  | .plain _ _ head, .client => head
  | .connect _ _, .upstream  => established
  | _, _                     => []

def skipped (i : Nat) : End → Nat
  | .client   => i + 4
  | .upstream => 0

variable (decode : Bytes → Text) (characters : Text → List Character)

def Read (s : Client) (i : Nat) (v : Verdict) : Prop :=
  Matching.first blank (s.conn .client).taken = some i ∧ v = dispatch characters (decode ((s.conn .client).taken.take i))

structure Fresh (s : Client) : Prop where
  shut : s.isOpen = false
  upstream : s.conn .upstream = {}
  client : (s.conn .client).out = [] ∧ (s.conn .client).cancelled = false
  relay : s.relay = fun _ => .idle

def Unread (s : Client) : Prop :=
  (Matching.first blank (s.conn .client).taken = none ∧
      (headLimit < (s.conn .client).taken.length ∨ ((s.conn .client).finished = true ∧ (s.conn .client).incoming = []))) ∨
    ∃ i status, Read decode characters s i (.refuse status)

/-- Nothing more is to come, once a connection is cancelled; and a relay that has got the end has got all. -/
structure Cut (s : Client) : Prop where
  all : (∃ e, (s.conn e).cancelled = true) → ∀ e, (s.relay e).held = [] ∧ (s.conn e).incoming = []
  last : ∀ e data, s.relay e = .got data true →
    (s.conn e).cancelled = true ∨ ((s.conn e).finished = true ∧ (s.conn e).incoming = [])
  ending : ∀ e, s.relay e = .ending → (s.conn e).cancelled = true

structure Relaying (s : Client) (i : Nat) (v : Verdict) : Prop where
  read : Read decode characters s i v
  isOpen : s.isOpen = true
  flow : ∀ e, (s.conn e.other).out ++ (s.relay e).held = before v e ++ (s.conn e).taken.drop (skipped i e)
  cut : Cut s

def Inv (s : Client) : Prop :=
  match s.stage with
  | .head sofar => (s.conn .client).taken = sofar ∧ Matching.first blank sofar = none ∧ Fresh s
  | .opening v rest => (∃ i, Read decode characters s i v ∧ rest = (s.conn .client).taken.drop (i + 4)) ∧
      (∀ peer port, v = .connect peer port → rest = []) ∧ (∀ status, v ≠ .refuse status) ∧ Fresh s
  | .sending => ∃ i v, Relaying decode characters s i v ∧ (∀ e, (s.conn e).cancelled = false) ∧ s.relay = fun _ => .idle
  | .relaying => ∃ i v, Relaying decode characters s i v
  | .refusing | .closed => s.isOpen = false ∧ (s.conn .upstream).out = [] ∧ (s.relay = fun _ => .idle) ∧
      (s.failed = true ∨ Unread decode characters s)

variable {decode characters} {s s' : Client}

theorem inv_start : Inv decode characters {} := ⟨rfl, rfl, rfl, rfl, ⟨rfl, rfl⟩, rfl⟩

theorem Inv.head {sofar : Bytes} (h : Inv decode characters s) (hst : s.stage = .head sofar) :
    (s.conn .client).taken = sofar ∧ Matching.first blank sofar = none ∧ Fresh s := by
  unfold Inv at h
  rwa [hst] at h

theorem Inv.opening {v : Verdict} {rest : Bytes} (h : Inv decode characters s) (hst : s.stage = .opening v rest) :
    (∃ i, Read decode characters s i v ∧ rest = (s.conn .client).taken.drop (i + 4)) ∧
      (∀ peer port, v = .connect peer port → rest = []) ∧ (∀ status, v ≠ .refuse status) ∧ Fresh s := by
  unfold Inv at h
  rwa [hst] at h

theorem Inv.sending (h : Inv decode characters s) (hst : s.stage = .sending) :
    ∃ i v, Relaying decode characters s i v ∧ (∀ e, (s.conn e).cancelled = false) ∧ s.relay = fun _ => .idle := by
  unfold Inv at h
  rwa [hst] at h

theorem Inv.relaying (h : Inv decode characters s) (hst : s.stage = .relaying) : ∃ i v, Relaying decode characters s i v := by
  unfold Inv at h
  rwa [hst] at h

theorem Inv.over (h : Inv decode characters s) (hst : s.stage = .refusing ∨ s.stage = .closed) :
    s.isOpen = false ∧ (s.conn .upstream).out = [] ∧ (s.relay = fun _ => .idle) ∧ (s.failed = true ∨ Unread decode characters s) := by
  unfold Inv at h
  rcases hst with hst | hst <;> rwa [hst] at h

theorem Inv.relaying_of (h : Inv decode characters s) {e : End} (he : s.relay e ≠ .idle) : s.stage = .relaying := by
  cases hst : s.stage with
  | head sofar => exact absurd (congrFun (h.head hst).2.2.relay e) he
  | opening v rest => exact absurd (congrFun (h.opening hst).2.2.2.relay e) he
  | sending =>
    obtain ⟨i, v, -, -, hidle⟩ := h.sending hst
    exact absurd (congrFun hidle e) he
  | relaying => rfl
  | refusing => exact absurd (congrFun (h.over (.inl hst)).2.2.1 e) he
  | closed => exact absurd (congrFun (h.over (.inr hst)).2.2.1 e) he

theorem Read.congr {t : Client} {i : Nat} {v : Verdict} (h : Read decode characters s i v)
    (ht : (t.conn .client).taken = (s.conn .client).taken) : Read decode characters t i v := by
  unfold Read
  rw [ht]
  exact h

/-! ## The ends send -/

section
variable {e : End} {data : Bytes} {f : Bool}
  (hdata : data ≠ [] → (s.conn e).finished = false ∧ (s.isOpen = true → ∀ e, (s.conn e).cancelled = false))
  (hf : (s.conn e).finished = true → f = true)

def arrives (s : Client) (e : End) (data : Bytes) (f : Bool) : Client :=
  s.setConn e { s.conn e with incoming := (s.conn e).incoming ++ data, finished := f }

theorem arrives_same (x : End) : ((s.arrives e data f).conn x).taken = (s.conn x).taken ∧
    ((s.arrives e data f).conn x).out = (s.conn x).out ∧ ((s.arrives e data f).conn x).cancelled = (s.conn x).cancelled := by
  unfold arrives
  obtain rfl | rfl := e.eq_or x
  · rw [setConn_self]
    exact ⟨rfl, rfl, rfl⟩
  · rw [setConn_other]
    exact ⟨rfl, rfl, rfl⟩

include hdata hf

theorem arrives_end {x : End} (hx : (s.conn x).finished = true ∧ (s.conn x).incoming = []) :
    ((s.arrives e data f).conn x).finished = true ∧ ((s.arrives e data f).conn x).incoming = [] := by
  unfold arrives
  obtain rfl | rfl := e.eq_or x
  · have hnil : data = [] := by
      by_contra hne
      exact absurd hx.1 (by rw [(hdata hne).1]; decide)
    rw [setConn_self]
    exact ⟨hf hx.1, by rw [hnil, hx.2]; rfl⟩
  · rw [setConn_other]
    exact hx

theorem Cut.arrives (h : Cut s) (hopen : s.isOpen = true) : Cut (s.arrives e data f) := by
  constructor
  · rintro ⟨x, hx⟩ y
    rw [(arrives_same x).2.2] at hx
    obtain ⟨hheld, hincoming⟩ := h.all ⟨x, hx⟩ y
    have hnil : data = [] := by
      by_contra hne
      exact absurd hx (by rw [(hdata hne).2 hopen x]; decide)
    refine ⟨hheld, ?_⟩
    unfold Client.arrives
    obtain rfl | rfl := e.eq_or y
    · rw [setConn_self]
      show _ ++ data = []
      rw [hincoming, hnil]
      rfl
    · rwa [setConn_other]
  · intro x d hx
    rw [(arrives_same x).2.2]
    exact (h.last x d hx).imp_right (arrives_end hdata hf)
  · intro x hx
    rw [(arrives_same x).2.2]
    exact h.ending x hx

theorem Relaying.arrives {i : Nat} {v : Verdict} (h : Relaying decode characters s i v) :
    Relaying decode characters (s.arrives e data f) i v where
  read := h.read.congr (arrives_same _).1
  isOpen := h.isOpen
  flow x := by
    rw [(arrives_same _).1, (arrives_same _).2.1]
    exact h.flow x
  cut := h.cut.arrives hdata hf h.isOpen

theorem Unread.arrives (h : Unread decode characters s) : Unread decode characters (s.arrives e data f) := by
  unfold Unread at h ⊢
  rw [(arrives_same _).1]
  rcases h with ⟨hnone, hwhy⟩ | ⟨i, status, hread⟩
  · exact .inl ⟨hnone, hwhy.imp_right (arrives_end hdata hf)⟩
  · exact .inr ⟨i, status, hread.congr (arrives_same _).1⟩

theorem Fresh.arrives (h : Fresh s) (hopen : e = .upstream → s.isOpen = true) : Fresh (s.arrives e data f) where
  shut := h.shut
  upstream := by
    obtain rfl : e = .client := by
      cases e with
      | client => rfl
      | upstream => exact absurd (hopen rfl) (by rw [h.shut]; decide)
    exact (setConn_other s .client _).trans h.upstream
  client := by
    rw [(arrives_same _).2.1, (arrives_same _).2.2]
    exact h.client
  relay := h.relay

/-- **What the ends do changes nothing the proxy has done.** -/
theorem Inv.arrives (h : Inv decode characters s) (hopen : e = .upstream → s.isOpen = true) :
    Inv decode characters (s.arrives e data f) := by
  have hstage : (s.arrives e data f).stage = s.stage := rfl
  unfold Inv
  rw [hstage]
  cases hst : s.stage with
  | head sofar =>
    obtain ⟨htaken, hnone, hfresh⟩ := h.head hst
    exact ⟨(arrives_same _).1.trans htaken, hnone, hfresh.arrives hdata hf hopen⟩
  | opening v rest =>
    obtain ⟨⟨i, hread, hrest⟩, hconnect, hrefuse, hfresh⟩ := h.opening hst
    exact ⟨⟨i, hread.congr (arrives_same _).1, by rw [(arrives_same _).1]; exact hrest⟩, hconnect, hrefuse,
      hfresh.arrives hdata hf hopen⟩
  | sending =>
    obtain ⟨i, v, hrun, hlive, hidle⟩ := h.sending hst
    exact ⟨i, v, hrun.arrives hdata hf, fun x => (arrives_same x).2.2.trans (hlive x), hidle⟩
  | relaying =>
    obtain ⟨i, v, hrun⟩ := h.relaying hst
    exact ⟨i, v, hrun.arrives hdata hf⟩
  | refusing =>
    obtain ⟨hshut, hout, hidle, hwhy⟩ := h.over (.inl hst)
    exact ⟨hshut, (arrives_same _).2.1.trans hout, hidle, hwhy.imp_right (Unread.arrives hdata hf)⟩
  | closed =>
    obtain ⟨hshut, hout, hidle, hwhy⟩ := h.over (.inr hst)
    exact ⟨hshut, (arrives_same _).2.1.trans hout, hidle, hwhy.imp_right (Unread.arrives hdata hf)⟩

end

/-! ## The head is read -/

theorem send_out {c : Connection} (h : c.cancelled = false) (data : Bytes) : c.send data = { c with out := c.out ++ data } := by
  unfold Connection.send
  rw [h, if_neg Bool.false_ne_true]

theorem send_incoming (c : Connection) (data : Bytes) : (c.send data).incoming = c.incoming := by
  unfold Connection.send
  split <;> rfl

theorem send_taken (c : Connection) (data : Bytes) : (c.send data).taken = c.taken := by
  unfold Connection.send
  split <;> rfl

theorem Inv.reads {sofar : Bytes} {n : Nat} {done : Bool} (h : Inv decode characters s) (hst : s.stage = .head sofar)
    (htake : CanTake (s.conn .client) n done) (hfine : Fine decode characters s (.reads n done)) :
    Inv decode characters (s.readHead decode characters sofar n done) := by
  obtain ⟨rfl, hnone, hfresh⟩ := h.head hst
  obtain ⟨hn, hlimit, hzero, hend⟩ := htake
  have hatend (hd : done = true) : (s.conn .client).finished = true ∧ (s.conn .client).incoming.drop n = [] := by
    obtain ⟨hfin, rfl⟩ := hend hd
    exact ⟨hfin, drop_length⟩
  unfold readHead
  dsimp only
  split
  · next hdata =>
    have hn0 : n = 0 := by
      rw [take_eq_nil_iff] at hdata
      rcases hdata with h0 | hnil
      · exact h0
      · rw [hnil, length_nil] at hn
        omega
    refine ⟨hfresh.shut, congrArg Connection.out hfresh.upstream, hfresh.relay, .inr (.inl ⟨?_, .inr (hatend (hzero hn0))⟩)⟩
    show Matching.first blank ((s.conn .client).taken ++ (s.conn .client).incoming.take n) = none
    rw [hdata, append_nil, hnone]
  · split
    · next hblank =>
      split
      · next hwhy =>
        exact ⟨hfresh.shut, congrArg Connection.out hfresh.upstream, hfresh.relay, .inr (.inl ⟨hblank, hwhy.symm.imp_right hatend⟩)⟩
      · exact ⟨rfl, hblank, hfresh.shut, hfresh.upstream, hfresh.client, hfresh.relay⟩
    rename_i i hblank
    split
    · next status hv =>
      have hread : Read decode characters (s.setConn .client (take (s.conn .client) n)) i (.refuse status) := ⟨hblank, hv.symm⟩
      exact ⟨hfresh.shut, congrArg Connection.out hfresh.upstream, hfresh.relay,
        .inr (.inr ⟨i, status, hread.congr (send_taken _ _)⟩)⟩
    · next hv =>
      refine ⟨⟨i, ⟨hblank, rfl⟩, rfl⟩, fun peer port he => hfine _ hst i hblank peer port he, fun status he => hv status he,
        hfresh.shut, hfresh.upstream, hfresh.client, hfresh.relay⟩

theorem Relaying.start {i : Nat} {v : Verdict} (hread : Read decode characters s i v) (hopen : s.isOpen = true)
    (hlive : ∀ e, (s.conn e).cancelled = false) (hidle : s.relay = fun _ => .idle)
    (hforth : (s.conn .upstream).out = before v .client ++ (s.conn .client).taken.drop (i + 4))
    (hback : (s.conn .client).out = before v .upstream) (hnone : (s.conn .upstream).taken = []) : Relaying decode characters s i v where
  read := hread
  isOpen := hopen
  flow e := by
    rw [hidle]
    show _ ++ [] = _
    rw [append_nil]
    cases e with
    | client => exact hforth
    | upstream =>
      show (s.conn .client).out = before v .upstream ++ (s.conn .upstream).taken.drop 0
      rw [hback, hnone, drop_nil, append_nil]
  cut := ⟨fun ⟨e, he⟩ => absurd he (by rw [hlive e]; decide), fun e d he => absurd (he.symm.trans (congrFun hidle e)) nofun,
    fun e he => absurd (he.symm.trans (congrFun hidle e)) nofun⟩

theorem Inv.ready {v : Verdict} {rest : Bytes} (h : Inv decode characters s) (hst : s.stage = .opening v rest) :
    Inv decode characters (s.ready v rest) := by
  obtain ⟨⟨i, hread, hrest⟩, hconnect, hrefuse, hfresh⟩ := h.opening hst
  obtain ⟨hout, hlive⟩ := hfresh.client
  have hupstream : (s.conn .upstream).cancelled = false ∧ (s.conn .upstream).out = [] ∧ (s.conn .upstream).taken = [] := by
    rw [hfresh.upstream]
    exact ⟨rfl, rfl, rfl⟩
  cases v with
  | refuse status => exact absurd rfl (hrefuse status)
  | connect peer port =>
    have hclient : (s.ready (.connect peer port) rest).conn .client = { s.conn .client with out := established } := by
      show (s.conn .client).send established = _
      rw [send_out hlive, hout]
      rfl
    have hall : ∀ x, ((s.ready (.connect peer port) rest).conn x).cancelled = false := fun x => by
      cases x with
      | client => rw [hclient]; exact hlive
      | upstream => exact hupstream.1
    refine ⟨i, .connect peer port, .start (hread.congr (by rw [hclient])) rfl hall hfresh.relay ?_ (by rw [hclient]; rfl) hupstream.2.2,
      hall, hfresh.relay⟩
    show (s.conn .upstream).out = [] ++ ((s.ready (.connect peer port) rest).conn .client).taken.drop (i + 4)
    rw [hclient, hupstream.2.1]
    show [] = (s.conn .client).taken.drop (i + 4)
    rw [← hrest, hconnect peer port rfl]
  | plain peer port head =>
    have hconn : (s.ready (.plain peer port head) rest).conn .upstream = { s.conn .upstream with out := head ++ rest } := by
      show (s.conn .upstream).send (head ++ rest) = _
      rw [send_out hupstream.1, hupstream.2.1]
      rfl
    have hall : ∀ x, ((s.ready (.plain peer port head) rest).conn x).cancelled = false := fun x => by
      cases x with
      | client => exact hlive
      | upstream => rw [hconn]; exact hupstream.1
    refine ⟨i, .plain peer port head, .start (hread.congr rfl) rfl hall hfresh.relay ?_ hout (by rw [hconn]; exact hupstream.2.2),
      hall, hfresh.relay⟩
    rw [hconn, hrest]
    rfl

theorem Inv.refuse {v : Verdict} {rest : Bytes} (h : Inv decode characters s) (hst : s.stage = .opening v rest) (status : Text) :
    Inv decode characters { s.refuse status with failed := true } := by
  obtain ⟨-, -, -, hfresh⟩ := h.opening hst
  exact ⟨hfresh.shut, congrArg Connection.out hfresh.upstream, hfresh.relay, .inl rfl⟩

theorem Inv.pump (h : Inv decode characters s) (hst : s.stage = .sending) :
    Inv decode characters { s with stage := .relaying, relay := fun _ => .waiting } := by
  obtain ⟨i, v, hrun, hlive, hidle⟩ := h.sending hst
  refine ⟨i, v, hrun.read, hrun.isOpen, fun e => ?_, ?_⟩
  · have := hrun.flow e
    rw [hidle] at this
    exact this
  · exact ⟨fun ⟨e, he⟩ => absurd he (by rw [hlive e]; decide), nofun, nofun⟩

theorem Unread.closed (h : Unread decode characters s) :
    Unread decode characters { s.setConn .client (cancel (s.conn .client)) with stage := .closed } := h

theorem Inv.close (h : Inv decode characters s) (hst : s.stage = .refusing) :
    Inv decode characters { s.setConn .client (cancel (s.conn .client)) with stage := .closed } := by
  obtain ⟨hshut, hout, hidle, hwhy⟩ := h.over (.inl hst)
  exact ⟨hshut, hout, hidle, hwhy.imp_right Unread.closed⟩

/-! ## The relays -/

theorem Relaying.skipped_le {i : Nat} {v : Verdict} (h : Relaying decode characters s i v) (e : End) :
    skipped i e ≤ (s.conn e).taken.length := by
  cases e with
  | client => exact Matching.first_le blank_le h.read.1
  | upstream => exact Nat.zero_le _

section
variable {i : Nat} {v : Verdict} {e : End}

theorem Relaying.receives {n : Nat} {done : Bool} (h : Relaying decode characters s i v) (hw : s.relay e = .waiting)
    (htake : CanTake (s.conn e) n done) : Relaying decode characters
      ((s.setConn e (take (s.conn e) n)).setRelay e (.got ((s.conn e).incoming.take n) done)) i v := by
  have hsame (x : End) : ((s.setConn e (take (s.conn e) n)).conn x).out = (s.conn x).out ∧
      ((s.setConn e (take (s.conn e) n)).conn x).cancelled = (s.conn x).cancelled := by
    obtain rfl | rfl := e.eq_or x
    · rw [setConn_self]
      exact ⟨rfl, rfl⟩
    · rw [setConn_other]
      exact ⟨rfl, rfl⟩
  have hle := h.skipped_le e
  constructor
  · obtain ⟨hblank, hv⟩ := h.read
    cases e with
    | client =>
      refine ⟨first_more _ hblank, ?_⟩
      show v = dispatch characters (decode (((s.conn .client).taken ++ (s.conn .client).incoming.take n).take i))
      rw [take_append_of_le_length (Nat.le_trans (Nat.le_add_right i 4) hle)]
      exact hv
    | upstream => exact ⟨hblank, hv⟩
  · exact h.isOpen
  · intro x
    obtain rfl | rfl := e.eq_or x
    · rw [setRelay_self]
      show ((s.setConn _ _).conn _).out ++ (s.conn _).incoming.take n = before v _ ++ ((s.setConn _ _).conn _).taken.drop _
      have hflow := h.flow x
      rw [hw] at hflow
      rw [(hsame _).1, setConn_self]
      show _ = _ ++ ((s.conn _).taken ++ (s.conn _).incoming.take n).drop _
      rw [drop_append_of_le_length hle, ← append_assoc, ← hflow]
      show _ = _ ++ [] ++ _
      rw [append_nil]
    · rw [setRelay_other]
      show ((s.setConn e _).conn _).out ++ (s.relay _).held = before v _ ++ ((s.setConn e _).conn _).taken.drop _
      rw [(hsame _).1, setConn_other]
      exact h.flow _
  · obtain ⟨hn, -, -, hend⟩ := htake
    constructor
    · rintro ⟨x, hx⟩ y
      obtain ⟨hheld, hincoming⟩ := h.cut.all ⟨x, ((hsame x).2.symm).trans hx⟩ y
      obtain rfl | rfl := e.eq_or y
      · rw [setRelay_self]
        show (s.conn _).incoming.take n = [] ∧ ((s.setConn _ _).conn _).incoming = []
        rw [setConn_self]
        show _ ∧ (s.conn _).incoming.drop n = []
        rw [hincoming]
        exact ⟨take_nil, drop_nil⟩
      · rw [setRelay_other]
        refine ⟨hheld, ?_⟩
        show ((s.setConn e _).conn _).incoming = []
        rwa [setConn_other]
    · intro x d hx
      show ((s.setConn e _).conn x).cancelled = true ∨ ((s.setConn e _).conn x).finished = true ∧ ((s.setConn e _).conn x).incoming = []
      obtain rfl | rfl := e.eq_or x
      · rw [setRelay_self] at hx
        obtain ⟨-, rfl⟩ := Relay.got.inj hx
        obtain ⟨hfin, rfl⟩ := hend rfl
        rw [setConn_self]
        exact .inr ⟨hfin, drop_length⟩
      · rw [setRelay_other] at hx
        rw [setConn_other]
        exact h.cut.last _ d hx
    · intro x hx
      show ((s.setConn e _).conn x).cancelled = true
      rw [(hsame x).2]
      obtain rfl | rfl := e.eq_or x
      · rw [setRelay_self] at hx
        exact Relay.noConfusion hx
      · rw [setRelay_other] at hx
        exact h.cut.ending _ hx

/-- A relay that holds nothing, now as before, and has not got the end but of a connection that is cancelled. -/
theorem Relaying.setRelay {r : Relay} (h : Relaying decode characters s i v) (hold : (s.relay e).held = []) (hnew : r.held = [])
    (hlast : ∀ d, r = .got d true → (s.conn e).cancelled = true) (hending : r = .ending → (s.conn e).cancelled = true) :
    Relaying decode characters (s.setRelay e r) i v where
  read := h.read
  isOpen := h.isOpen
  flow x := by
    have hflow := h.flow x
    obtain rfl | rfl := e.eq_or x
    · rw [setRelay_self, hnew]
      rw [hold] at hflow
      exact hflow
    · rw [setRelay_other]
      exact hflow
  cut := by
    constructor
    · intro hx y
      obtain ⟨hheld, hincoming⟩ := h.cut.all hx y
      obtain rfl | rfl := e.eq_or y
      · rw [setRelay_self]
        exact ⟨hnew, hincoming⟩
      · rw [setRelay_other]
        exact ⟨hheld, hincoming⟩
    · intro x d hx
      obtain rfl | rfl := e.eq_or x
      · rw [setRelay_self] at hx
        exact .inl (hlast d hx)
      · rw [setRelay_other] at hx
        exact h.cut.last _ d hx
    · intro x hx
      obtain rfl | rfl := e.eq_or x
      · rw [setRelay_self] at hx
        exact hending hx
      · rw [setRelay_other] at hx
        exact h.cut.ending _ hx

theorem Relaying.cancel (h : Relaying decode characters s i v) (hnone : ∀ x, (s.relay x).held = [] ∧ (s.conn x).incoming = []) :
    Relaying decode characters (s.setConn e (cancel (s.conn e))) i v := by
  have hsame (x : End) : ((s.setConn e (Client.cancel (s.conn e))).conn x).taken = (s.conn x).taken ∧
      ((s.setConn e (Client.cancel (s.conn e))).conn x).out = (s.conn x).out ∧
      ((s.setConn e (Client.cancel (s.conn e))).conn x).incoming = (s.conn x).incoming ∧
      ((s.setConn e (Client.cancel (s.conn e))).conn x).finished = (s.conn x).finished ∧
      ((s.conn x).cancelled = true → ((s.setConn e (Client.cancel (s.conn e))).conn x).cancelled = true) := by
    obtain rfl | rfl := e.eq_or x
    · rw [setConn_self]
      exact ⟨rfl, rfl, rfl, rfl, fun _ => rfl⟩
    · rw [setConn_other]
      exact ⟨rfl, rfl, rfl, rfl, id⟩
  constructor
  · exact h.read.congr (hsame _).1
  · exact h.isOpen
  · intro x
    rw [(hsame _).1, (hsame _).2.1]
    exact h.flow x
  · constructor
    · intro _ y
      rw [(hsame _).2.2.1]
      exact hnone y
    · intro x d hx
      rw [(hsame _).2.2.1, (hsame _).2.2.2.1]
      exact (h.cut.last x d hx).imp_left (hsame x).2.2.2.2
    · exact fun x hx => (hsame x).2.2.2.2 (h.cut.ending x hx)

theorem Relaying.sent {data : Bytes} {last : Bool} (h : Relaying decode characters s i v) (hr : s.relay e = .got data last) :
    Relaying decode characters ((if data = [] then s else s.setConn e.other ((s.conn e.other).send data)).setRelay e .waiting) i v := by
  have hheld : (s.relay e).held = data := by rw [hr]; rfl
  split
  · next hdata => exact h.setRelay (hheld.trans hdata) rfl nofun nofun
  rename_i hdata
  have hlive : (s.conn e.other).cancelled = false := by
    cases hc : (s.conn e.other).cancelled with
    | false => rfl
    | true => exact absurd (hheld ▸ (h.cut.all ⟨_, hc⟩ e).1) hdata
  rw [send_out hlive]
  have hsame (x : End) : ((s.setConn e.other { s.conn e.other with out := (s.conn e.other).out ++ data }).conn x).taken = (s.conn x).taken ∧
      ((s.setConn e.other { s.conn e.other with out := (s.conn e.other).out ++ data }).conn x).incoming = (s.conn x).incoming ∧
      ((s.setConn e.other { s.conn e.other with out := (s.conn e.other).out ++ data }).conn x).finished = (s.conn x).finished ∧
      ((s.setConn e.other { s.conn e.other with out := (s.conn e.other).out ++ data }).conn x).cancelled = (s.conn x).cancelled := by
    obtain rfl | rfl := e.other.eq_or x
    · rw [setConn_self]
      exact ⟨rfl, rfl, rfl, rfl⟩
    · rw [setConn_other]
      exact ⟨rfl, rfl, rfl, rfl⟩
  constructor
  · exact h.read.congr (hsame _).1
  · exact h.isOpen
  · intro x
    show ((s.setConn e.other _).conn _).out ++ _ = before v _ ++ ((s.setConn e.other _).conn _).taken.drop _
    rw [(hsame _).1]
    have hflow := h.flow x
    obtain rfl | rfl := e.eq_or x
    · rw [setRelay_self, setConn_self]
      rw [hheld] at hflow
      show (s.conn _).out ++ data ++ [] = _
      rw [append_nil]
      exact hflow
    · rw [setRelay_other, setConn_other]
      exact hflow
  · constructor
    · rintro ⟨x, hx⟩ y
      obtain ⟨hnil, hincoming⟩ := h.cut.all ⟨x, (hsame x).2.2.2.symm.trans hx⟩ y
      refine ⟨?_, (hsame y).2.1.trans hincoming⟩
      obtain rfl | rfl := e.eq_or y
      · rw [setRelay_self]
        rfl
      · rwa [setRelay_other]
    · intro x d hx
      show ((s.setConn e.other _).conn x).cancelled = true ∨
        ((s.setConn e.other _).conn x).finished = true ∧ ((s.setConn e.other _).conn x).incoming = []
      rw [(hsame x).2.2.2, (hsame x).2.2.1, (hsame x).2.1]
      obtain rfl | rfl := e.eq_or x
      · rw [setRelay_self] at hx
        exact Relay.noConfusion hx
      · rw [setRelay_other] at hx
        exact h.cut.last _ d hx
    · intro x hx
      show ((s.setConn e.other _).conn x).cancelled = true
      rw [(hsame x).2.2.2]
      obtain rfl | rfl := e.eq_or x
      · rw [setRelay_self] at hx
        exact Relay.noConfusion hx
      · rw [setRelay_other] at hx
        exact h.cut.ending _ hx

theorem Relaying.forward {data : Bytes} {last : Bool} (h : Relaying decode characters s i v) (hr : s.relay e = .got data last)
    (hfine : last = true → (s.conn e).cancelled = false → (s.relay e.other).held = [] ∧ (s.conn e.other).incoming = []) :
    Relaying decode characters (s.forward e data last) i v := by
  have hsent := h.sent hr
  cases last with
  | false => exact hsent
  | true =>
    have hquiet : (s.relay e.other).held = [] ∧ ∀ x, (s.conn x).incoming = [] := by
      rcases Bool.eq_false_or_eq_true (s.conn e).cancelled with hc | hc
      · exact ⟨(h.cut.all ⟨e, hc⟩ _).1, fun x => (h.cut.all ⟨e, hc⟩ x).2⟩
      obtain ⟨hheld, hincoming⟩ := hfine rfl hc
      refine ⟨hheld, fun x => ?_⟩
      obtain rfl | rfl := e.eq_or x
      · exact ((h.cut.last _ data hr).resolve_left (by rw [hc]; decide)).2
      · exact hincoming
    unfold Client.forward
    dsimp only
    rw [if_pos rfl]
    generalize hmid : (if data = [] then s else s.setConn e.other ((s.conn e.other).send data)) = t at hsent
    have hmiddle : t.relay = s.relay ∧ ∀ x, (t.conn x).incoming = (s.conn x).incoming := by
      subst hmid
      split
      · exact ⟨rfl, fun _ => rfl⟩
      refine ⟨rfl, fun x => ?_⟩
      obtain rfl | rfl := e.other.eq_or x
      · rw [setConn_self, send_incoming]
      · rw [setConn_other]
    have hnone : ∀ x, ((t.setRelay e .waiting).relay x).held = [] ∧ ((t.setRelay e .waiting).conn x).incoming = [] := fun x => by
      refine ⟨?_, (hmiddle.2 x).trans (hquiet.2 x)⟩
      obtain rfl | rfl := e.eq_or x
      · rw [setRelay_self]
        rfl
      · rw [setRelay_other, hmiddle.1]
        exact hquiet.1
    have hcancel := (hsent.cancel (e := e) hnone).setRelay (e := e) (r := .ending) (hnone e).1 rfl nofun
      (fun _ => congrArg Connection.cancelled (setConn_self ..))
    have hsame : ((t.setRelay e .waiting).setConn e (Client.cancel ((t.setRelay e .waiting).conn e))).setRelay e .ending =
        (t.setConn e (Client.cancel (t.conn e))).setRelay e .ending := by
      unfold Client.setRelay Client.setConn
      rw [Function.update_idem]
    rwa [hsame] at hcancel

theorem Relaying.cancels (h : Relaying decode characters s i v) (hr : s.relay e = .ending) :
    Relaying decode characters ((s.setConn e.other (Client.cancel (s.conn e.other))).setRelay e .ended) i v := by
  have hall := h.cut.all ⟨e, h.cut.ending e hr⟩
  exact (h.cancel hall).setRelay (hall e).1 rfl nofun nofun

end

/-! ## Every run -/

theorem Relaying.inv {i : Nat} {v : Verdict} (h : Relaying decode characters s i v) (hst : s.stage = .relaying) :
    Inv decode characters s := by
  unfold Inv
  rw [hst]
  exact ⟨i, v, h⟩

theorem forward_stage (e : End) (data : Bytes) (last : Bool) : (s.forward e data last).stage = s.stage := by
  unfold Client.forward
  dsimp only
  split <;> split <;> rfl

/-- **Every step keeps it.** -/
theorem inv_step (ev : Event) (h : Inv decode characters s) (hfine : Fine decode characters s ev)
    (hs : s.step decode characters ev = some s') : Inv decode characters s' := by
  cases ev with
  | sends e data =>
    obtain ⟨hc, hs⟩ := Option.ite_none_left_eq_some.1 hs
    cases hs
    rw [not_or] at hc
    exact h.arrives (e := e) (f := (s.conn e).finished) (fun _ => ⟨Bool.eq_false_iff.2 hc.1, hfine⟩) id
      (fun he => by
        by_contra hshut
        exact hc.2 ⟨he, Bool.eq_false_iff.2 hshut⟩)
  | finishes e =>
    obtain ⟨hc, hs⟩ := Option.ite_none_left_eq_some.1 hs
    cases hs
    have : Inv decode characters (s.arrives e [] true) := h.arrives (fun hne => absurd rfl hne) (fun _ => rfl)
      (fun he => by
        by_contra hshut
        exact hc ⟨he, Bool.eq_false_iff.2 hshut⟩)
    unfold Client.arrives at this
    rwa [append_nil] at this
  | reads n done =>
    dsimp only [step] at hs
    split at hs
    · next sofar hst =>
      obtain ⟨htake, hs⟩ := Option.ite_none_right_eq_some.1 hs
      cases hs
      exact h.reads hst htake hfine
    · exact nomatch hs
  | opened ok =>
    dsimp only [step] at hs
    split at hs
    · next v rest hst =>
      cases hs
      split
      · exact h.ready hst
      · exact h.refuse hst _
    · exact nomatch hs
  | processed =>
    dsimp only [step] at hs
    split at hs
    · next hst =>
      cases hs
      exact h.pump hst
    · next hst =>
      cases hs
      exact h.close hst
    · exact nomatch hs
  | receives e n done =>
    obtain ⟨hw, hs⟩ := Option.ite_none_right_eq_some.1 hs
    have hst := h.relaying_of (e := e) (by rw [hw]; nofun)
    obtain ⟨i, v, hrun⟩ := h.relaying hst
    split at hs
    · next hc =>
      cases hs
      exact (hrun.setRelay (r := .got [] true) (by rw [hw]; rfl) rfl (fun _ _ => hc) (fun he => Relay.noConfusion he)).inv hst
    · obtain ⟨htake, hs⟩ := Option.ite_none_right_eq_some.1 hs
      cases hs
      exact (hrun.receives hw htake).inv hst
  | forwards e =>
    dsimp only [step] at hs
    split at hs
    · next data last hr =>
      cases hs
      have hst := h.relaying_of (e := e) (by rw [hr]; nofun)
      obtain ⟨i, v, hrun⟩ := h.relaying hst
      exact (hrun.forward hr fun hlast hc => hfine data (hlast ▸ hr) hc).inv ((forward_stage e data last).trans hst)
    · exact nomatch hs
  | cancels e =>
    obtain ⟨hr, hs⟩ := Option.ite_none_right_eq_some.1 hs
    cases hs
    have hst := h.relaying_of (e := e) (by rw [hr]; nofun)
    obtain ⟨i, v, hrun⟩ := h.relaying hst
    exact (hrun.cancels hr).inv hst

theorem inv_run {es : List Event} (hfine : Runs.Along (Client.step decode characters) (Fine decode characters) {} es)
    (hrun : Runs.run (Client.step decode characters) {} es = some s) : Inv decode characters s :=
  Runs.run_inv (fun _ a _ h hq ht => inv_step a h hq ht) inv_start hfine hrun

/-! ## What each end gets -/

section
variable {q : Request} {body : Bytes} (hq : q.WellFormed) (hr : q.Carried characters) (hc : Clusters characters)
  (hdec : ∀ t, decode (utf8 t) = t) (hsent : (s.conn .client).sent = q.bytes ++ body)

include hq hsent

theorem found {i : Nat} (h : Matching.first blank (s.conn .client).taken = some i) : i = (utf8 q.head).length := by
  have hfirst := first_more (s.conn .client).incoming h
  change Matching.first blank (s.conn .client).sent = some i at hfirst
  rw [hsent, first_bytes hq] at hfirst
  exact (Option.some.inj hfirst).symm

theorem found_of_le (h : q.bytes.length ≤ (s.conn .client).taken.length) :
    Matching.first blank (s.conn .client).taken = some (utf8 q.head).length := by
  have hfirst : Matching.first blank ((s.conn .client).taken ++ (s.conn .client).incoming) = some (utf8 q.head).length :=
    (congrArg (Matching.first blank) hsent).trans (first_bytes hq body)
  refine Matching.first_of_append blank_append (by decide : 0 < 4) hfirst ?_
  have hlength : q.bytes.length = (utf8 q.head).length + 4 := length_append
  omega

include hdec

theorem head_eq {i : Nat} {v : Verdict} (h : Read decode characters s i v) :
    i = (utf8 q.head).length ∧ v = dispatch characters q.head := by
  obtain ⟨hblank, hv⟩ := h
  have hi := found hq hsent hblank
  refine ⟨hi, ?_⟩
  have hle : i ≤ (s.conn .client).taken.length := Nat.le_trans (Nat.le_add_right i 4) (Matching.first_le blank_le hblank)
  have htake : (s.conn .client).taken.take i = utf8 q.head := by
    have hmore : ((s.conn .client).taken ++ (s.conn .client).incoming).take i = (s.conn .client).taken.take i :=
      take_append_of_le_length hle
    rw [← hmore]
    change (s.conn .client).sent.take i = _
    rw [hsent, hi]
    show (utf8 q.head ++ utf8 (crlf ++ crlf) ++ body).take _ = _
    rw [append_assoc, take_left]
  rw [hv, htake, hdec]

include hr hc

theorem before_eq {i : Nat} {v : Verdict} (h : Read decode characters s i v) :
    (∀ status, v ≠ .refuse status) ∧ before v .client = q.rewritten ∧ before v .upstream = greeting q.target := by
  obtain ⟨-, rfl⟩ := head_eq hq hdec hsent h
  unfold Request.rewritten
  cases ht : q.target with
  | authority peer port =>
    obtain ⟨p, hp⟩ := dispatch_connect hq hc hr ht
    rw [hp]
    exact ⟨nofun, rfl, rfl⟩
  | absolute host path =>
    obtain ⟨peer, port, hp⟩ := dispatch_plain hq hc hr ht
    rw [hp]
    refine ⟨nofun, ?_, rfl⟩
    show q.rewritten = _
    unfold Request.rewritten
    rw [ht]

theorem not_unread (hlength : q.bytes.length ≤ headLimit) (h : Unread decode characters s) : False := by
  rcases h with ⟨hnone, hwhy⟩ | ⟨i, status, hread⟩
  · have hle : q.bytes.length ≤ (s.conn .client).taken.length := by
      rcases hwhy with hlong | ⟨-, hincoming⟩
      · omega
      have hall : (s.conn .client).taken = q.bytes ++ body := by
        rw [← hsent]
        unfold Connection.sent
        rw [hincoming, append_nil]
      rw [hall, length_append]
      omega
    rw [found_of_le hq hsent hle] at hnone
    exact nomatch hnone
  · exact (before_eq hq hr hc hdec hsent hread).1 status rfl

/-- **Nothing is lost on the way**: what has been sent on, what a relay holds and what is still to be received make up what was sent. -/
theorem Relaying.ends {i : Nat} {v : Verdict} (h : Relaying decode characters s i v) :
    (s.conn .upstream).out ++ ((s.relay .client).held ++ (s.conn .client).incoming) = q.rewritten ++ body ∧
      (s.conn .client).out ++ ((s.relay .upstream).held ++ (s.conn .upstream).incoming) = greeting q.target ++ (s.conn .upstream).sent := by
  obtain ⟨-, hforth, hback⟩ := before_eq hq hr hc hdec hsent h.read
  have hbody : (s.conn .client).taken.drop (i + 4) ++ (s.conn .client).incoming = body := by
    have hle : i + 4 ≤ (s.conn .client).taken.length := h.skipped_le .client
    rw [← drop_append_of_le_length hle]
    change (s.conn .client).sent.drop (i + 4) = _
    have hlength : i + 4 = q.bytes.length := by
      rw [(head_eq hq hdec hsent h.read).1]
      exact (length_append : (utf8 q.head ++ utf8 (crlf ++ crlf)).length = _).symm
    rw [hsent, hlength, drop_left]
  constructor
  · rw [← append_assoc, show (s.conn .upstream).out ++ (s.relay .client).held = _ from h.flow .client, hforth, append_assoc]
    exact congrArg (q.rewritten ++ ·) hbody
  · rw [← append_assoc, show (s.conn .client).out ++ (s.relay .upstream).held = _ from h.flow .upstream, hback, append_assoc]
    rfl

theorem Relaying.transparent {i : Nat} {v : Verdict} (h : Relaying decode characters s i v) : Transparent q body s where
  taken _ := .inl h.isOpen
  forth := ⟨_, (h.ends hq hr hc hdec hsent).1⟩
  back _ := ⟨_, (h.ends hq hr hc hdec hsent).2⟩
  whole hrest _ := by
    obtain ⟨hincoming, hheld, -⟩ := hrest
    have hall (e : End) : (s.conn e).incoming = [] := (hincoming e).elim id fun he => (h.cut.all ⟨e, he⟩ e).2
    obtain ⟨hforth, hback⟩ := h.ends hq hr hc hdec hsent
    rw [hheld, hall, append_nil, append_nil] at hforth hback
    exact ⟨hforth, hback⟩

end

theorem transparent_shut {q : Request} {body : Bytes} (hshut : s.isOpen = false) (hout : (s.conn .upstream).out = [])
    (htaken : s.AtRest → s.isOpen = true ∨ s.failed = true ∨ ∃ verdict rest, s.stage = .opening verdict rest) : Transparent q body s where
  taken := htaken
  forth := by
    rw [hout]
    exact nil_prefix
  back hopen := absurd hopen (by rw [hshut]; decide)
  whole _ hopen := absurd hopen (by rw [hshut]; decide)

/-- **The proxy is transparent** for every request it takes for what it is, in every run that meets the condition: the chunks, the order
in which the ends send and finish, and the order of the relays' steps are any. -/
theorem transparent_kept (hc : Clusters characters) (hdec : ∀ t, decode (utf8 t) = t) {q : Request} (hq : q.WellFormed)
    (hr : q.Carried characters) (hlength : q.bytes.length ≤ headLimit) {es : List Event} {body : Bytes}
    (hrun : Runs.run (Client.step decode characters) {} es = some s)
    (hfine : Runs.Along (Client.step decode characters) (Fine decode characters) {} es)
    (hsent : (s.conn .client).sent = q.bytes ++ body) : Transparent q body s := by
  have h := inv_run hfine hrun
  cases hst : s.stage with
  | head sofar =>
    obtain ⟨rfl, hnone, hfresh⟩ := h.head hst
    refine transparent_shut hfresh.shut (congrArg Connection.out hfresh.upstream) fun hrest => ?_
    have hincoming : (s.conn .client).incoming = [] := (hrest.1 .client).resolve_right (by rw [hfresh.client.2]; decide)
    have hall : (s.conn .client).taken = q.bytes ++ body := by
      rw [← hsent]
      unfold Connection.sent
      rw [hincoming, append_nil]
    have hfound := found_of_le hq hsent (by rw [hall, length_append]; omega)
    exact nomatch hnone.symm.trans hfound
  | opening v rest =>
    obtain ⟨-, -, -, hfresh⟩ := h.opening hst
    exact transparent_shut hfresh.shut (congrArg Connection.out hfresh.upstream) fun _ => .inr (.inr ⟨v, rest, hst⟩)
  | sending =>
    obtain ⟨i, v, hrelay, -, -⟩ := h.sending hst
    exact hrelay.transparent hq hr hc hdec hsent
  | relaying =>
    obtain ⟨i, v, hrelay⟩ := h.relaying hst
    exact hrelay.transparent hq hr hc hdec hsent
  | refusing =>
    obtain ⟨hshut, hout, -, hwhy⟩ := h.over (.inl hst)
    exact transparent_shut hshut hout fun _ => .inr (.inl (hwhy.resolve_right (not_unread hq hr hc hdec hsent hlength)))
  | closed =>
    obtain ⟨hshut, hout, -, hwhy⟩ := h.over (.inr hst)
    exact transparent_shut hshut hout fun _ => .inr (.inl (hwhy.resolve_right (not_unread hq hr hc hdec hsent hlength)))

/-! ## Three runs -/

/-- `String(decoding:as:)`, of what is text. -/
def decodeText (b : Bytes) : Text := (b.toByteArray.utf8Decode?.map Array.toList).getD []

theorem decodeText_utf8 (t : Text) : decodeText (utf8 t) = t := by
  have hbytes : (utf8 t).toByteArray = t.utf8Encode := rfl
  unfold decodeText
  rw [hbytes, utf8Decode?_utf8Encode]
  rfl

/-- The `Character`s of a text without a line's end and without marks. -/
def single (t : Text) : List Character := t.map ([·])

theorem single_clusters : Clusters single where
  flat t := by
    induction t with
    | nil => rfl
    | cons c t ih => exact congrArg (c :: ·) ih
  ascii t c hc _ := by
    obtain ⟨x, -, rfl⟩ := mem_map.1 hc
    exact .inl rfl

theorem single_stands (t : Text) : Request.Stands single t := fun c hc d _ hd => by
  obtain ⟨x, -, rfl⟩ := mem_map.1 hc
  rw [mem_singleton.1 hd]

/-- `POST http://h/p HTTP/1.1`, on a connection that is to be kept. -/
def post : Request := ⟨"POST".toList, .absolute "h".toList "/p".toList, "HTTP/1.1".toList, ["Connection: keep-alive".toList, "A: b".toList]⟩

theorem post_wellFormed : post.WellFormed where
  method := by decide
  target := by decide
  version := by decide
  fields := by decide
  connect := nofun
  absolute host path h := by
    obtain ⟨rfl, rfl⟩ := Target.absolute.inj h
    decide

theorem post_carried : post.Carried single where
  line := single_stands _
  target := single_stands _
  fields f _ := single_stands f
  path host path h := by
    obtain ⟨-, rfl⟩ := Target.absolute.inj h
    decide

instance decidableFine (s : Client) : ∀ ev, Decidable (Fine decode characters s ev)
  | .sends _ _ => inferInstanceAs (Decidable (_ → ∀ e, _))
  | .reads n _ =>
    match hst : s.stage with
    | .head sofar =>
      match hb : Matching.first blank (sofar ++ (s.conn .client).incoming.take n) with
      | some i =>
        match hv : dispatch characters (decode ((sofar ++ (s.conn .client).incoming.take n).take i)) with
        | .connect _ _ => decidable_of_iff ((sofar ++ (s.conn .client).incoming.take n).drop (i + 4) = []) ⟨fun h x hx j hj peer port _ => by
            obtain rfl := Stage.head.inj (hst.symm.trans hx)
            obtain rfl := Option.some.inj (hb.symm.trans hj)
            exact h, fun h => h sofar hst i hb _ _ hv⟩
        | .refuse _ | .plain _ _ _ => isTrue fun x hx j hj peer port he => by
            obtain rfl := Stage.head.inj (hst.symm.trans hx)
            obtain rfl := Option.some.inj (hb.symm.trans hj)
            exact nomatch hv.symm.trans he
      | none => isTrue fun x hx j hj => by
          obtain rfl := Stage.head.inj (hst.symm.trans hx)
          exact nomatch hb.symm.trans hj
    | .opening _ _ | .sending | .relaying | .refusing | .closed => isTrue fun x hx => nomatch hst.symm.trans hx
  | .forwards e =>
    match hr : s.relay e with
    | .got data true => decidable_of_iff ((s.conn e).cancelled = false → (s.relay e.other).held = [] ∧ (s.conn e.other).incoming = [])
        ⟨fun h _ _ => h, fun h => h data hr⟩
    | .got _ false | .idle | .waiting | .ending | .ended => isTrue fun d hd => nomatch hr.symm.trans hd
  | .finishes _ | .opened _ | .processed | .receives _ _ _ | .cancels _ => isTrue trivial

/-- A body of two bytes, one of them in one chunk with the head's end, and an answer; then the peer closes. -/
def posted : List Event :=
  [.sends .client (post.bytes ++ [65, 66]), .reads 5 false, .reads (post.bytes.length - 4) false, .opened true, .processed,
    .receives .client 1 false, .sends .upstream [82, 83], .receives .upstream 2 false, .forwards .upstream, .forwards .client,
    .finishes .upstream, .receives .upstream 0 true, .forwards .upstream, .cancels .upstream, .receives .client 0 true,
    .forwards .client, .cancels .client]

theorem posted_runs : (Runs.run (Client.step decodeText single) {} posted).isSome = true := by decide

theorem posted_sent : (((Runs.run (Client.step decodeText single) {} posted).get posted_runs).conn .client).sent = post.bytes ++ [65, 66] := by
  decide

theorem posted_transparent : Transparent post [65, 66] ((Runs.run (Client.step decodeText single) {} posted).get posted_runs) :=
  transparent_kept single_clusters decodeText_utf8 post_wellFormed post_carried (by decide) (Option.some_get posted_runs).symm
    (by decide) posted_sent

/-- The client has sent its request and finishes; the answer is still to come. -/
def halfClosed : List Event :=
  [.sends .client post.bytes, .finishes .client, .reads post.bytes.length true, .opened true, .processed, .receives .client 0 true,
    .forwards .client, .cancels .client, .sends .upstream [82]]

/-- **The client that finishes first gets no answer**: its relay cancels the other end's connection too. -/
theorem answer_lost : ∃ s, Runs.run (Client.step decodeText single) {} halfClosed = some s ∧ (s.conn .client).sent = post.bytes ++ [] ∧
    ¬ Transparent post [] s := by
  have hrun : (Runs.run (Client.step decodeText single) {} halfClosed).map (fun s =>
      ((s.conn .client).sent, (s.conn .client).out, (s.conn .upstream).sent, decide s.AtRest, s.isOpen)) =
      some (post.bytes, [], [82], true, true) := by
    decide
  obtain ⟨s, hrun, heq⟩ := Option.map_eq_some_iff.1 hrun
  simp only [Prod.mk.injEq] at heq
  obtain ⟨hsent, hout, hanswer, hrest, hopen⟩ := heq
  refine ⟨s, hrun, hsent, fun h => ?_⟩
  have hback := (h.whole (of_decide_eq_true hrest) hopen).2
  rw [hout, hanswer] at hback
  exact absurd hback (by decide)

end Client
end Proxy
end Prose
