import Mathlib.Algebra.GroupWithZero.Nat
import Mathlib.Data.List.TakeWhile
import Prose.Matching
/-!
# ProxyHead — a request's head, and what becomes of it

`dispatch` of `guestproxy.swift`.  A `String` is its scalars, and where the code goes by `Character`s, so does the model: which scalars
make one is `characters`, of the language's library.
-/
namespace Prose
namespace Proxy

abbrev Bytes := List UInt8
abbrev Text := List Char
/-- A `Character` is one scalar, or some that belong together. -/
abbrev Character := List Char

def utf8 (t : Text) : Bytes := t.flatMap String.utf8EncodeChar

def crlf : Text := ['\r', '\n']

def blank (b : Bytes) : Bool := b.take 4 = utf8 (crlf ++ crlf)

/-! ## What the library does -/

def consHead (c : Char) : List Text → List Text
  | []      => [[c]]
  | l :: ls => (c :: l) :: ls

/-- `components(separatedBy: "\r\n")`. -/
def components : Text → List Text
  | []          => [[]]
  | [c]         => [[c]]
  | c :: d :: t => if c = '\r' ∧ d = '\n' then [] :: components t else consHead c (components (d :: t))

/-- `joined(separator: "\r\n")`. -/
def joined : List Text → Text
  | []            => []
  | [l]           => l
  | l :: m :: ls  => l ++ crlf ++ joined (m :: ls)

section
variable {α : Type} [DecidableEq α] (sep : α)

/-- `split(separator:maxSplits:)`: so many splits are left, and this is the piece so far; an empty piece is left out. -/
def split : Nat → List α → List α → List (List α)
  | 0, _, l               => if l = [] then [] else [l]
  | _ + 1, piece, []      => if piece = [] then [] else [piece]
  | k + 1, piece, c :: l =>
    if c = sep then (if piece = [] then split (k + 1) [] l else piece :: split k [] l) else split (k + 1) (piece ++ [c]) l

/-- What stands before `lastIndex(of:)` and behind it. -/
def lastSplit : List α → Option (List α × List α)
  | []     => none
  | c :: l =>
    match lastSplit l with
    | some (before, behind) => some (c :: before, behind)
    | none => if c = sep then some ([], l) else none

end

def number (t : Text) : Option Nat :=
  if t = [] then none else t.foldlM (fun n c => if c.isDigit then some (10 * n + (c.toNat - '0'.toNat)) else none) 0

/-- `UInt16(_:)` of a text. -/
def uint16 (t : Text) : Option UInt16 :=
  (match t with
    | '+' :: t => number t
    | '-' :: t => (number t).filter (· = 0)
    | t => number t).bind fun n => if n < 2 ^ 16 then some (.ofNat n) else none

/-- `lowercased()`, as far as it makes a name of ASCII letters. -/
def lowercased (t : Text) : Text := t.map Char.toLower

/-! ## The code's own -/

inductive Verdict
  | refuse (status : Text)
  | connect (peer : Text) (port : UInt16)
  /-- the head, as it goes to the other end -/
  | plain (peer : Text) (port : UInt16) (head : Bytes)
  deriving DecidableEq

def badRequest : Text := "400 Bad Request".toList

def dropped (name : Text) : Bool := name = "proxy-connection".toList ∨ name = "connection".toList

/-- What is known of a text's `Character`s: they are the text, and none is of several ASCII scalars but for a line's end. -/
structure Clusters (characters : Text → List Character) : Prop where
  flat : ∀ t, (characters t).flatten = t
  ascii : ∀ t, ∀ c ∈ characters t, (∀ x ∈ c, x.toNat < 0x80) → c.length = 1 ∨ c = crlf

section
variable (characters : Text → List Character)

def outLines (method path version : Text) (fields : List Text) : List Text :=
  (method ++ ' ' :: (path ++ ' ' :: version)) ::
    (fields.filter fun line => !dropped (lowercased ((characters line).takeWhile (· ≠ [':'])).flatten)) ++
      ["Connection: close".toList, [], []]

def dispatch (head : Text) : Verdict :=
  let lines := components head
  let request := lines.headD []
  match (split [' '] 2 [] (characters request)).map List.flatten with
  | [method, target, version] =>
    if method = "CONNECT".toList then
      match lastSplit [':'] (characters target) with
      | none => .refuse badRequest
      | some (peer, port) =>
        match uint16 port.flatten with
        | none => .refuse badRequest
        | some port => .connect peer.flatten port
    else if (characters target).take 7 = "http://".toList.map ([·]) then
      let authority := (characters target).drop 7
      let hostport := (authority.takeWhile (· ≠ ['/'])).flatten
      let slash := authority.dropWhile (· ≠ ['/'])
      let path := if slash = [] then ['/'] else slash.flatten
      let colon := lastSplit [':'] (characters hostport)
      let peer := (colon.map fun c => c.1.flatten).getD hostport
      let port := (colon.bind fun c => uint16 c.2.flatten).getD 80
      .plain peer port (utf8 (joined (outLines characters method path version lines.tail)))
    else .refuse badRequest
  | _ => .refuse badRequest

end

/-! ## Requests -/

inductive Target
  | authority (peer port : Text)
  | absolute (authority path : Text)

def Target.text : Target → Text
  | .authority peer port => peer ++ ':' :: port
  | .absolute host path  => "http://".toList ++ (host ++ path)

structure Request where
  method : Text
  target : Target
  version : Text
  fields : List Text

namespace Request
variable (q : Request)

def line : Text := q.method ++ ' ' :: (q.target.text ++ ' ' :: q.version)

def head : Text := joined (q.line :: q.fields)
def bytes : Bytes := utf8 q.head ++ utf8 (crlf ++ crlf)

def Free (bad : List Char) (t : Text) : Prop := ∀ c ∈ t, c ∉ bad

instance (bad : List Char) (t : Text) : Decidable (Free bad t) := List.decidableBAll (fun c => c ∉ bad) t

structure WellFormed : Prop where
  method : q.method ≠ [] ∧ Free [' ', '\r', '\n'] q.method
  target : Free [' ', '\r', '\n'] q.target.text
  version : q.version ≠ [] ∧ Free [' ', '\r', '\n'] q.version
  fields : ∀ f ∈ q.fields, f ≠ [] ∧ Free ['\r', '\n'] f
  connect : ∀ peer port, q.target = .authority peer port →
    q.method = "CONNECT".toList ∧ Free [':'] port ∧ (uint16 port).isSome = true
  absolute : ∀ authority path, q.target = .absolute authority path →
    q.method ≠ "CONNECT".toList ∧ Free ['/', '?', '#'] authority ∧ (path = [] ∨ path.head? = some '/' ∨ path.head? = some '?')

/-- The target of an ordinary request: the path, and where it is left out, `/`. -/
def originForm (path : Text) : Text := if path.head? = some '/' then path else '/' :: path

def HopByHop (field : Text) : Prop := lowercased (field.takeWhile (· ≠ ':')) ∈ ["connection".toList, "proxy-connection".toList]

instance (field : Text) : Decidable (HopByHop field) := inferInstanceAs (Decidable (_ ∈ _))

/-- **The head that the other end is to get**: none of a `CONNECT`. -/
def rewritten : Bytes :=
  match q.target with
  | .authority _ _ => []
  | .absolute _ path => utf8 (joined ((q.method ++ ' ' :: (originForm path ++ ' ' :: q.version)) ::
      (q.fields.filter fun f => ¬HopByHop f) ++ ["Connection: close".toList]) ++ crlf ++ crlf)

variable (characters : Text → List Character)

/-- The spaces, colons and slashes of a text are each a `Character` of their own. -/
def Stands (t : Text) : Prop := ∀ c ∈ characters t, ∀ d ∈ [' ', ':', '/'], d ∈ c → c = [d]

structure Carried : Prop where
  line : Stands characters q.line
  target : Stands characters q.target.text
  fields : ∀ f ∈ q.fields, Stands characters f
  path : ∀ authority path, q.target = .absolute authority path → path.head? ≠ some '?'

end Request

end Proxy
end Prose
