import Prose.ProxyHead
import Prose.Utf8
/-!
# ProxyRewrite — a request is taken for what it is

The head ends where its blank line is, and `dispatch` makes of it what the other end is to get.
-/
namespace Prose
namespace Proxy

open List

/-! ## Lines -/

open Request (Free Stands)
open Pieces (cut_at takeWhile_flatten dropWhile_flatten)

theorem components_line : ∀ {l : Text} (t : Text), Free ['\r', '\n'] l → components (l ++ crlf ++ t) = l :: components t
  | [], t, _ => if_pos ⟨rfl, rfl⟩
  | [c], t, h => by
    have hc : c ≠ '\r' := fun he => h c mem_cons_self (by rw [he]; decide)
    show (if c = '\r' ∧ '\r' = '\n' then [] :: components ('\n' :: t) else consHead c (components ([] ++ crlf ++ t))) = _
    rw [if_neg fun hcd => hc hcd.1, components_line t (fun _ hx => absurd hx not_mem_nil)]
    rfl
  | c :: d :: l, t, h => by
    have hc : c ≠ '\r' := fun he => h c mem_cons_self (by rw [he]; decide)
    show (if c = '\r' ∧ d = '\n' then [] :: components (l ++ crlf ++ t) else consHead c (components (d :: l ++ crlf ++ t))) = _
    rw [if_neg fun hcd => hc hcd.1, components_line t (fun x hx => h x (mem_cons_of_mem _ hx))]
    rfl

theorem components_last : ∀ {l : Text}, Free ['\r', '\n'] l → components l = [l]
  | [], _ => rfl
  | [_], _ => rfl
  | c :: d :: l, h => by
    have hc : c ≠ '\r' := fun he => h c mem_cons_self (by rw [he]; decide)
    show (if c = '\r' ∧ d = '\n' then [] :: components l else consHead c (components (d :: l))) = _
    rw [if_neg fun hcd => hc hcd.1, components_last (fun x hx => h x (mem_cons_of_mem _ hx))]
    rfl

/-- **Lines that were joined come apart again.** -/
theorem components_joined : ∀ {l : Text} {ls : List Text}, (∀ m ∈ l :: ls, Free ['\r', '\n'] m) →
    components (joined (l :: ls)) = l :: ls
  | l, [], h => components_last (h l mem_cons_self)
  | l, m :: ls, h => by
    show components (l ++ crlf ++ joined (m :: ls)) = _
    rw [components_line _ (h l mem_cons_self), components_joined (fun x hx => h x (mem_cons_of_mem _ hx))]

/-! ## Pieces -/

section
variable {α : Type} [DecidableEq α] {sep : α}

theorem split_piece (k : Nat) : ∀ {a : List α} {piece : List α} (b : List α), sep ∉ a → piece ++ a ≠ [] →
    split sep (k + 1) piece (a ++ sep :: b) = (piece ++ a) :: split sep k [] b
  | [], piece, b, _, hne => by
    rw [append_nil] at hne ⊢
    show (if sep = sep then (if piece = [] then _ else _) else _) = _
    rw [if_pos rfl, if_neg hne]
  | c :: a, piece, b, hsep, hne => by
    have hc : c ≠ sep := fun he => hsep (he ▸ mem_cons_self)
    show (if c = sep then _ else split sep (k + 1) (piece ++ [c]) (a ++ sep :: b)) = _
    rw [if_neg hc, split_piece k b (fun hm => hsep (mem_cons_of_mem _ hm)) (by simp), append_assoc, singleton_append]

theorem split_last {l : List α} (h : l ≠ []) : split sep 0 [] l = [l] := by
  unfold split
  exact if_neg h

theorem lastSplit_none : ∀ {b : List α}, sep ∉ b → lastSplit sep b = none
  | [], _ => rfl
  | c :: b, h => by
    unfold lastSplit
    rw [lastSplit_none fun hm => h (mem_cons_of_mem _ hm)]
    exact if_neg fun he : c = sep => h (he ▸ mem_cons_self)

theorem lastSplit_at : ∀ {a b : List α}, sep ∉ b → lastSplit sep (a ++ sep :: b) = some (a, b)
  | [], b, h => by
    rw [nil_append, lastSplit, lastSplit_none h]
    exact if_pos rfl
  | c :: a, b, h => by
    rw [cons_append, lastSplit, lastSplit_at h]

end

/-! ## The blank line -/

theorem utf8_append (a b : Text) : utf8 (a ++ b) = utf8 a ++ utf8 b := flatMap_append

theorem free_bytes {l : Text} (h : Free ['\r', '\n'] l) : ∀ x ∈ utf8 l, x ≠ 13 ∧ x ≠ 10 := by
  have hnot (x : UInt8) (hx : x ∈ utf8 l) (c : Char) (hc : c ∈ ['\r', '\n']) : x.toNat ≠ c.toNat := fun he => by
    obtain ⟨d, hd, hxd⟩ := mem_flatMap.1 hx
    have hlow : x.toNat < 0x80 := by
      rw [he]
      rcases mem_cons.1 hc with rfl | hc
      · decide
      · rw [mem_singleton.1 hc]
        decide
    have := Json.of_mem_encode hlow hxd
    exact h d hd (Char.toNat_inj.1 (this.trans he) ▸ hc)
  exact fun x hx => ⟨fun he => hnot x hx '\r' (by decide) (by rw [he]; rfl), fun he => hnot x hx '\n' (by decide) (by rw [he]; rfl)⟩

theorem blank_cons {x : UInt8} (t : Bytes) (h : x ≠ 13) : blank (x :: t) = false := by
  refine decide_eq_false fun he => h ?_
  exact (List.cons.inj he).1

/-- **A line has no blank line in it.** -/
theorem first_line {l : Text} (t : Bytes) (h : Free ['\r', '\n'] l) :
    Matching.first blank (utf8 l ++ t) = (Matching.first blank t).map (· + (utf8 l).length) := by
  refine Matching.first_behind fun i hi => ?_
  rw [drop_eq_getElem_cons hi, cons_append]
  exact blank_cons _ (free_bytes h _ (getElem_mem hi)).1

theorem utf8_ne_nil {l : Text} (h : l ≠ []) : utf8 l ≠ [] := by
  obtain ⟨c, l, rfl⟩ := exists_cons_of_ne_nil h
  exact append_ne_nil_of_left_ne_nil String.utf8EncodeChar_ne_nil _

theorem joined_cons (l : Text) (ls : List Text) : ∃ t, joined (l :: ls) = l ++ t := by
  cases ls with
  | nil => exact ⟨[], (append_nil l).symm⟩
  | cons m ls => exact ⟨crlf ++ joined (m :: ls), append_assoc ..⟩

/-- **The first blank line is the one behind the head.** -/
theorem first_head : ∀ {l : Text} {ls : List Text} (rest : Bytes), Free ['\r', '\n'] l → (∀ m ∈ ls, m ≠ [] ∧ Free ['\r', '\n'] m) →
    Matching.first blank (utf8 (joined (l :: ls)) ++ (utf8 (crlf ++ crlf) ++ rest)) = some (utf8 (joined (l :: ls))).length
  | l, [], rest, hl, _ => by
    show Matching.first blank (utf8 l ++ (utf8 (crlf ++ crlf) ++ rest)) = some (utf8 l).length
    rw [first_line _ hl]
    have hhere : Matching.first blank (utf8 (crlf ++ crlf) ++ rest) = some 0 := rfl
    rw [hhere, Option.map_some, Nat.zero_add]
  | l, m :: ls, rest, hl, hls => by
    obtain ⟨hne, hm⟩ := hls m mem_cons_self
    have hbehind := first_head rest hm (fun x hx => hls x (mem_cons_of_mem _ hx))
    obtain ⟨t, ht⟩ := joined_cons m ls
    obtain ⟨x, u, hx⟩ := exists_cons_of_ne_nil (utf8_ne_nil hne)
    have hcr : x ≠ 13 := (free_bytes hm x (by rw [hx]; exact mem_cons_self)).1
    have hnext : utf8 (joined (m :: ls)) = x :: (u ++ utf8 t) := by
      rw [ht, utf8_append, hx, cons_append]
    have hbytes : utf8 (joined (l :: m :: ls)) = utf8 l ++ (13 :: 10 :: utf8 (joined (m :: ls))) := by
      show utf8 (l ++ crlf ++ joined (m :: ls)) = _
      rw [append_assoc, utf8_append, utf8_append]
      rfl
    have hbreak : blank (13 :: 10 :: (utf8 (joined (m :: ls)) ++ (utf8 (crlf ++ crlf) ++ rest))) = false := by
      rw [hnext]
      refine decide_eq_false fun he => hcr ?_
      exact (List.cons.inj (List.cons.inj (List.cons.inj he).2).2).1
    have hskip : Matching.first blank (13 :: 10 :: (utf8 (joined (m :: ls)) ++ (utf8 (crlf ++ crlf) ++ rest))) =
        some ((utf8 (joined (m :: ls))).length + 2) := by
      show (if _ then _ else ((if _ then _ else (Matching.first blank _).map _ : Option Nat)).map _ : Option Nat) = _
      rw [hbreak, if_neg Bool.false_ne_true, blank_cons _ (by decide), if_neg Bool.false_ne_true, hbehind]
      rfl
    rw [hbytes, append_assoc, first_line _ hl, cons_append, cons_append, hskip, Option.map_some, length_append,
      length_cons, length_cons, Nat.add_comm]

/-! ## What `dispatch` makes of a request -/

theorem singles {characters : Text → List Character} (hc : Clusters characters) {t : Text} : ∀ {cs : List Character},
    (∀ c ∈ cs, c ∈ characters t) → (∀ x ∈ cs.flatten, x.toNat < 0x80 ∧ x ≠ '\r') → cs = cs.flatten.map ([·])
  | [], _, _ => rfl
  | c :: cs, hmem, hall => by
    have hhere : ∀ x ∈ c, x.toNat < 0x80 ∧ x ≠ '\r' := fun x hx => hall x (mem_append_left _ hx)
    have hrest := singles hc (fun x hx => hmem x (mem_cons_of_mem _ hx)) (fun x hx => hall x (mem_append_right _ hx))
    rcases hc.ascii t c (hmem c mem_cons_self) (fun x hx => (hhere x hx).1) with hone | rfl
    · obtain ⟨x, rfl⟩ := length_eq_one_iff.1 hone
      rw [flatten_cons, singleton_append, map_cons, ← hrest]
    · exact absurd rfl (hhere '\r' mem_cons_self).2

theorem joined_snoc : ∀ (l : Text) (ls : List Text) (m : Text), joined (l :: (ls ++ [m])) = joined (l :: ls) ++ crlf ++ m
  | _, [], _ => rfl
  | l, k :: ls, m => by
    show l ++ crlf ++ joined (k :: (ls ++ [m])) = l ++ crlf ++ joined (k :: ls) ++ crlf ++ m
    rw [joined_snoc k ls m]
    simp only [append_assoc]

theorem kept_eq {characters : Text → List Character} (hc : Clusters characters) {fields : List Text}
    (h : ∀ f ∈ fields, Stands characters f) :
    (fields.filter fun line => !dropped (lowercased ((characters line).takeWhile (· ≠ [':'])).flatten)) =
      fields.filter fun f => ¬Request.HopByHop f := by
  refine filter_congr fun f hf => ?_
  have hname : ((characters f).takeWhile (· ≠ [':'])).flatten = f.takeWhile (· ≠ ':') := by
    rw [takeWhile_flatten fun c hcm hd => h f hf c hcm ':' (by decide) hd, hc.flat]
  have hsame : dropped (lowercased (f.takeWhile (· ≠ ':'))) = decide (Request.HopByHop f) := by
    unfold dropped Request.HopByHop
    exact decide_eq_decide.2 (by rw [mem_cons, mem_singleton]; exact Or.comm)
  rw [hname, hsame, decide_not]

theorem nothing {characters : Text → List Character} (hc : Clusters characters) {t : Text} {cs : List Character}
    (hmem : ∀ c ∈ cs, c ∈ characters t) (h : cs.flatten = []) : cs = [] := by
  have := singles hc hmem (by rw [h]; exact fun x hx => absurd hx not_mem_nil)
  rwa [h] at this

section
variable {q : Request} (hq : q.WellFormed)
include hq

theorem lines_free : ∀ l ∈ q.line :: q.fields, Free ['\r', '\n'] l := fun l hl => by
  have hsub : ∀ c ∈ ['\r', '\n'], c ∈ [' ', '\r', '\n'] := fun c hc => mem_cons_of_mem ' ' hc
  rcases mem_cons.1 hl with rfl | hl
  · intro c hcl hbad
    rcases mem_append.1 hcl with hm | hm
    · exact hq.method.2 c hm (hsub c hbad)
    rcases mem_cons.1 hm with rfl | hm
    · exact absurd hbad (by decide)
    rcases mem_append.1 hm with hm | hm
    · exact hq.target c hm (hsub c hbad)
    rcases mem_cons.1 hm with rfl | hm
    · exact absurd hbad (by decide)
    · exact hq.version.2 c hm (hsub c hbad)
  · exact (hq.fields l hl).2

theorem lines_eq : components q.head = q.line :: q.fields := components_joined (lines_free hq)

/-- **The head of a request's bytes is its head.** -/
theorem first_bytes (rest : Bytes) : Matching.first blank (q.bytes ++ rest) = some (utf8 q.head).length := by
  show Matching.first blank (utf8 q.head ++ utf8 (crlf ++ crlf) ++ rest) = _
  rw [append_assoc]
  exact first_head rest (lines_free hq _ mem_cons_self) hq.fields

variable {characters : Text → List Character} (hc : Clusters characters) (hr : q.Carried characters)
include hc hr

theorem parts_eq : (split [' '] 2 [] (characters q.line)).map List.flatten = [q.method, q.target.text, q.version] := by
  have hspace : ∀ c ∈ characters q.line, ' ' ∈ c → c = [' '] := fun c hcm => hr.line c hcm ' ' (by decide)
  obtain ⟨m, rest, hcut, hm, hrest⟩ := cut_at hspace (hc.flat q.line)
  obtain ⟨t, v, rfl, ht, hv⟩ :=
    cut_at (fun c hcm => hspace c (by rw [hcut]; exact mem_append_right _ (mem_cons_of_mem _ hcm))) hrest
  have hnot {cs : List Character} {a : Text} (hcs : cs.flatten = a) (ha : Free [' ', '\r', '\n'] a) : [' '] ∉ cs := fun hmem =>
    ha ' ' (hcs ▸ mem_flatten_of_mem hmem (mem_singleton_self ' ')) (by decide)
  have hne {cs : List Character} {a : Text} (hcs : cs.flatten = a) (ha : a ≠ []) : cs ≠ [] := fun he => ha (by rw [← hcs, he]; rfl)
  have htext : q.target.text ≠ [] := by
    cases q.target with
    | authority peer port => exact append_ne_nil_of_right_ne_nil _ (cons_ne_nil _ _)
    | absolute host path => exact cons_ne_nil _ _
  have hmethod : [] ++ m ≠ [] := hne hm hq.method.1
  have htarget : [] ++ t ≠ [] := hne ht htext
  rw [hcut, split_piece 1 _ (hnot hm hq.method.2) hmethod, split_piece 0 _ (hnot ht hq.target) htarget,
    split_last (hne hv hq.version.1), nil_append, nil_append, map_cons, map_cons, map_cons, hm, ht, hv]
  rfl

/-- **A `CONNECT` is taken for one**, and nothing of its head goes on. -/
theorem dispatch_connect {peer port : Text} (ht : q.target = .authority peer port) :
    ∃ p, dispatch characters q.head = .connect peer p := by
  obtain ⟨hmethod, hport, hnumber⟩ := hq.connect peer port ht
  obtain ⟨p, hp⟩ := Option.isSome_iff_exists.1 hnumber
  have htext : q.target.text = peer ++ ':' :: port := by rw [ht]; rfl
  obtain ⟨before, behind, hcut, hbefore, hbehind⟩ :=
    cut_at (d := ':') (fun c hcm => hr.target c hcm ':' (by decide)) ((hc.flat q.target.text).trans htext)
  have hcolon : [':'] ∉ behind := fun hmem =>
    hport ':' (hbehind ▸ mem_flatten_of_mem hmem (mem_singleton_self ':')) (by decide)
  refine ⟨p, ?_⟩
  unfold dispatch
  simp only [lines_eq hq, headD_cons, parts_eq hq hc hr]
  rw [if_pos hmethod, hcut, lastSplit_at hcolon]
  simp only [hbehind, hp, hbefore]

omit hq in
theorem scheme_eq {host path : Text} (ht : q.target = .absolute host path) :
    (characters q.target.text).take 7 = "http://".toList.map ([·]) ∧ ((characters q.target.text).drop 7).flatten = host ++ path := by
  have htext : q.target.text = "http".toList ++ ':' :: ('/' :: '/' :: (host ++ path)) := by rw [ht]; rfl
  have hslash : ∀ c ∈ characters q.target.text, '/' ∈ c → c = ['/'] := fun c hcm => hr.target c hcm '/' (by decide)
  obtain ⟨scheme, rest, hcut, hscheme, hrest⟩ :=
    cut_at (d := ':') (fun c hcm => hr.target c hcm ':' (by decide)) ((hc.flat q.target.text).trans htext)
  have hmem {c : Character} (h : c ∈ rest) : c ∈ characters q.target.text := by
    rw [hcut]
    exact mem_append_right _ (mem_cons_of_mem _ h)
  obtain ⟨before, rest, rfl, hbefore, hrest⟩ := cut_at (a := []) (fun c hcm => hslash c (hmem hcm)) hrest
  obtain ⟨between, rest, rfl, hbetween, hrest⟩ :=
    cut_at (a := []) (fun c hcm => hslash c (hmem (mem_append_right _ (mem_cons_of_mem _ hcm)))) hrest
  have hletters : scheme = "http".toList.map ([·]) := by
    have hascii : ("http".toList.all (fun x => decide (x.toNat < 0x80 ∧ x ≠ '\r'))) = true := by decide
    have := singles hc (t := q.target.text) (fun c hcm => hcut ▸ mem_append_left _ hcm)
      (fun x hx => of_decide_eq_true (all_eq_true.1 hascii x (hscheme ▸ hx)))
    rwa [hscheme] at this
  obtain rfl := nothing hc (fun c hcm => hmem (mem_append_left _ hcm)) hbefore
  obtain rfl := nothing hc (fun c hcm => hmem (mem_cons_of_mem _ (mem_append_left _ hcm))) hbetween
  rw [hcut, hletters]
  exact ⟨rfl, (List.cons.inj (List.cons.inj hrest).2).2⟩

theorem path_eq {host path : Text} (ht : q.target = .absolute host path) :
    (if ((characters q.target.text).drop 7).dropWhile (· ≠ ['/']) = [] then ['/']
      else (((characters q.target.text).drop 7).dropWhile (· ≠ ['/'])).flatten) = Request.originForm path := by
  obtain ⟨-, hfree, hpath⟩ := hq.absolute host path ht
  have hnoquery := hr.path host path ht
  have hslash : ∀ c ∈ (characters q.target.text).drop 7, '/' ∈ c → c = ['/'] := fun c hcm =>
    hr.target c (mem_of_mem_drop hcm) '/' (by decide)
  have hflat : (((characters q.target.text).drop 7).dropWhile (· ≠ ['/'])).flatten = path.dropWhile (· ≠ '/') := by
    rw [dropWhile_flatten hslash, (scheme_eq hc hr ht).2]
    exact dropWhile_append_of_pos fun c hcm => decide_eq_true fun he => hfree c hcm (by rw [he]; decide)
  unfold Request.originForm
  rcases hpath with rfl | hpath | hquery
  · rw [if_pos (nothing hc (fun c hcm => mem_of_mem_drop ((dropWhile_suffix _).subset hcm)) hflat)]
    rfl
  · obtain ⟨tail, rfl⟩ := head?_eq_some_iff.1 hpath
    rw [dropWhile_cons_of_neg (by decide)] at hflat
    rw [if_neg fun he => cons_ne_nil '/' tail (by rw [← hflat, he]; rfl), hflat, if_pos hpath]
  · exact absurd hquery hnoquery

/-- **An ordinary request goes on rewritten.** -/
theorem dispatch_plain {host path : Text} (ht : q.target = .absolute host path) :
    ∃ peer port, dispatch characters q.head = .plain peer port q.rewritten := by
  obtain ⟨hmethod, -, -⟩ := hq.absolute host path ht
  have hscheme := (scheme_eq hc hr ht).1
  have hout : joined (outLines characters q.method (Request.originForm path) q.version q.fields) =
      joined ((q.method ++ ' ' :: (Request.originForm path ++ ' ' :: q.version)) ::
        ((q.fields.filter fun f => ¬Request.HopByHop f) ++ ["Connection: close".toList])) ++ crlf ++ crlf := by
    unfold outLines
    rw [kept_eq hc hr.fields]
    rw [show ["Connection: close".toList, [], []] = ["Connection: close".toList] ++ [[]] ++ [[]] from rfl, ← append_assoc,
      ← append_assoc, cons_append, cons_append, cons_append, joined_snoc, joined_snoc, append_nil,
      append_nil]
  unfold dispatch
  simp only [lines_eq hq, headD_cons, parts_eq hq hc hr, tail_cons]
  rw [if_neg hmethod, if_pos hscheme, path_eq hq hc hr ht, hout]
  refine ⟨_, _, congrArg (Verdict.plain _ _) ?_⟩
  unfold Request.rewritten
  rw [ht]
  rfl

end

end Proxy
end Prose
