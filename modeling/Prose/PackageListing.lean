import Mathlib.Data.Char
import Mathlib.Data.List.Lex
import Mathlib.Data.List.Sort
import Mathlib.Logic.Function.Basic
/-!
# PackageListing — a package as files, and as its listing

`copy_with_vendor` on the files of a package, and `unblocked_listing` and `categorized_listing` on its listing.  A path is the names
in it, which have no slash; how the package tool shows sizes, modes and attributes is not looked into, except that an icon's line is
what the code takes it for.
-/
namespace Prose
namespace LocalPackages

abbrev Text := List Char
abbrev Path := List Text

/-- `sorted`. -/
def sorted {α : Type} [LinearOrder α] (l : List α) : List α := l.insertionSort (· ≤ ·)

/-- `DESKBAR_APPLICATIONS`, the menu it is in, `apps` and `.PackageInfo`. -/
def menu : Path := ["data".toList, "deskbar".toList, "menu".toList]
def applications : Path := menu ++ ["Applications".toList]
def appsDir : Path := ["apps".toList]
def packageInfo : Path := [".PackageInfo".toList]

/-- `apps/<name>`. -/
def app (name : Text) : Path := appsDir ++ [name]

def entry (name : Text) : Path := applications ++ [name]
def inFolder (folder name : Text) : Path := applications ++ [folder, name]

/-- An attribute; the name in the file system is `user.haiku.` and this, and the type goes before the data there. -/
structure Attr where
  name : Text
  type : Text
  data : List UInt8
  deriving DecidableEq

inductive Kind
  | dir
  | file (size : Nat)
  | link (target : Text)
  deriving DecidableEq

structure Node where
  kind : Kind
  mode : Nat := 0
  attrs : List Attr := []

abbrev Files := Path → Option Node

/-- An extracted package: every entry is in a directory of it, and an attribute's name is an attribute's. -/
structure Tree where
  paths : List Path
  node : Files
  nodup : paths.Nodup
  mem : ∀ {p}, p ∈ paths ↔ (node p).isSome = true
  parent : ∀ {p name}, p ≠ [] → (node (p ++ [name])).isSome = true → ∃ n, node p = some n ∧ n.kind = .dir
  attrs : ∀ {p n}, node p = some n → (n.attrs.map Attr.name).Nodup

/-- The lines of its `.PackageInfo`, and its files. -/
structure Package where
  info : List Text
  tree : Tree

/-- `BEOS:ICON`, of type `VICN`. -/
def icon (data : List UInt8) : Attr := ⟨"BEOS:ICON".toList, "VICN".toList, data⟩

/-! ## The listing -/

/-- The line `categorized_listing` adds. -/
def iconLine (size : Nat) : Text := "<BEOS:ICON ".toList ++ Nat.toDigits 10 size ++ " 'VICN'>".toList

abbrev Attributes := Text → Option (List Text)

/-- The package tool: the attributes it takes from a `.PackageInfo`, and how it shows an entry's. -/
structure Tool where
  attributes : List Text → Attributes
  line : Attr → Text
  bits : Nat → Text
  fileSize : Nat → Text
  linkSize : Text
  line_icon : ∀ data, line (icon data) = iconLine data.length

/-- `[size, mode, link target, attributes...]`. -/
structure Value where
  size : Text
  mode : Text
  link : Text
  lines : List Text

abbrev Contents := Path → Option Value

/-- What `package_listing` returns, and the order the entries come in. -/
structure Listing where
  attributes : Attributes
  order : List Path
  contents : Contents

namespace Tool

def value (tool : Tool) : Node → Value
  | ⟨.dir, mode, attrs⟩ => ⟨"-".toList, 'd' :: tool.bits mode, [], sorted (attrs.map tool.line)⟩
  | ⟨.file size, mode, attrs⟩ => ⟨tool.fileSize size, '-' :: tool.bits mode, [], sorted (attrs.map tool.line)⟩
  | ⟨.link target, mode, attrs⟩ => ⟨tool.linkSize, 'l' :: tool.bits mode, "-> ".toList ++ target, sorted (attrs.map tool.line)⟩

def contents (tool : Tool) (fs : Files) : Contents := fun p => (fs p).map tool.value

/-- `package_listing`. -/
def listing (tool : Tool) (p : Package) : Listing := ⟨tool.attributes p.info, p.tree.paths, tool.contents p.tree.node⟩

end Tool

/-- `same_package_but_vendor`. -/
def SameButVendor (a b : Attributes × Contents) : Prop :=
  (∀ key, key ≠ "vendor".toList → a.1 key = b.1 key) ∧ ∀ p, p ≠ packageInfo → a.2 p = b.2 p

def inApplications : Path → Option Text
  | [a, b, c, d, name] => if [a, b, c, d] = applications then some name else none
  | _ => none

/-- What `unblocked_listing` leaves out. -/
def dropped (blocked : List Text) (p : Path) (v : Value) : Prop :=
  (∃ name ∈ blocked, app name <+: p) ∨
    (menu <+: p ∧ p ≠ menu ∧ (∃ name ∈ blocked, p.getLast? = some name) ∧ v.mode.head? ≠ some 'd')

instance (blocked : List Text) (p : Path) (v : Value) : Decidable (dropped blocked p v) :=
  inferInstanceAs (Decidable ((∃ name ∈ blocked, _) ∨ (_ ∧ _ ∧ (∃ name ∈ blocked, _) ∧ _)))

/-- `unblocked_listing`. -/
def unblockedListing (l : Listing) (blocked : List Text) : Listing :=
  if blocked = [] then l
  else
    let keep (p : Path) := (l.contents p).bind fun v => if dropped blocked p v then none else some v
    ⟨l.attributes, l.order.filter fun p => (keep p).isSome, keep⟩

def linkText (link : Text) : Text :=
  if "-> ".toList <+: link ∧ ¬ "-> /".toList <+: link then "-> ../".toList ++ link.drop 3 else link

def withIconLine (icons : List (Text × List UInt8)) (folder : Text) (lines : List Text) : List Text :=
  match icons.lookup folder with
  | some data => sorted (lines ++ [iconLine data.length])
  | none => lines

/-- The folder `categorized_listing` makes, unless there is one already. -/
def listFolder (contents : Contents) (icons : List (Text × List UInt8)) (moved : Contents) (folder : Text) : Option Contents :=
  if (moved (entry folder)).isSome then some moved
  else (contents applications).map fun v =>
    Function.update moved (entry folder) (some { v with lines := withIconLine icons folder v.lines })

/-- One entry of `categorized_listing`. -/
def listOne (contents : Contents) (categories : List (Text × Text)) (icons : List (Text × List UInt8)) (moved : Contents) (p : Path)
    (v : Value) : Option Contents :=
  match (inApplications p).bind fun name => (categories.lookup name).map fun folder => (name, folder) with
  | some (name, folder) =>
    if v.mode.head? = some 'l' then
      (listFolder contents icons moved folder).map fun moved =>
        Function.update moved (inFolder folder name) (some { v with link := linkText v.link })
    else some (Function.update moved p (some v))
  | none => some (Function.update moved p (some v))

/-- `categorized_listing`. -/
def categorizedListing (l : Listing) (categories : List (Text × Text)) (icons : List (Text × List UInt8)) :
    Option (Attributes × Contents) :=
  (l.order.foldlM (fun moved p => match l.contents p with
    | some v => listOne l.contents categories icons moved p v
    | none => some moved) (fun _ => none)).map fun moved => (l.attributes, moved)

/-! ## The files -/

/-- Where the copy ends: an exception, or a symbolic link where it looks for a directory, behind which it is not followed here. -/
inductive Stop
  | raised
  | behindLink

def isLink : Option Node → Bool
  | some ⟨.link _, _, _⟩ => true
  | _ => false

def isDir : Option Node → Bool
  | some ⟨.dir, _, _⟩ => true
  | _ => false

def behind (fs : Files) (p : Path) : Bool := p.inits.any fun q => isLink (fs q)

/-- `rmtree`. -/
def rmtree (fs : Files) (target : Path) : Files := fun p => if target <+: p then none else fs p

/-- The entries `menu.rglob('*')` comes to. -/
def below (paths : List Path) (fs : Files) : List Path := sorted (paths.filter fun p => menu <+: p ∧ p ≠ menu ∧ (fs p).isSome)

/-- The loops of `remove_blocked_apps`. -/
def removeApps (blocked : List Text) (fs : Files) : Files :=
  (sorted blocked).foldl (fun fs name => if (fs (app name)).isSome then rmtree fs (app name) else fs) fs

def removeEntries (blocked : List Text) (fs : Files) (entries : List Path) : Files :=
  entries.foldl (fun fs p => if (∃ name ∈ blocked, p.getLast? = some name) ∧ ¬ isDir (fs p) then Function.update fs p none else fs) fs

/-- `remove_blocked_apps`. -/
def removeBlockedApps (paths : List Path) (fs : Files) (blocked : List Text) : Except Stop Files :=
  if behind fs appsDir || behind fs menu then .error .behindLink
  else
    let fs := removeApps blocked fs
    .ok (if isDir (fs menu) then removeEntries blocked fs (below paths fs) else fs)

/-- `xattr -w`, and `copy_haiku_attributes`. -/
def setAttr (attrs : List Attr) (a : Attr) : List Attr := attrs.filter (fun b => b.name ≠ a.name) ++ [a]

def copyHaikuAttributes (src dst : List Attr) : List Attr := src.foldl setAttr dst

def withIcon (icons : List (Text × List UInt8)) (folder : Text) (attrs : List Attr) : List Attr :=
  match icons.lookup folder with
  | some data => setAttr attrs (icon data)
  | none => attrs

/-- The folder an entry goes into: there, or made like Applications, with its icon. -/
def makeFolder (icons : List (Text × List UInt8)) (fs : Files) (folder : Text) : Except Stop Files :=
  match fs (entry folder), fs applications with
  | none, some apps =>
    let attrs := withIcon icons folder (copyHaikuAttributes apps.attrs [])
    .ok (Function.update fs (entry folder) (some { kind := .dir, mode := apps.mode, attrs := attrs }))
  | some ⟨.dir, _, _⟩, _ => .ok fs
  | some ⟨.link _, _, _⟩, _ => .error .behindLink
  | _, _ => .error .raised

def linkDown (target : Text) : Text := if target.head? = some '/' then target else "../".toList ++ target

/-- One entry of `categorize_deskbar_entries`. -/
def moveEntry (categories : List (Text × Text)) (icons : List (Text × List UInt8)) (fs : Files) (name : Text) : Except Stop Files :=
  match categories.lookup name, fs (entry name) with
  | some folder, some ⟨.link target, mode, attrs⟩ => do
    let fs ← makeFolder icons fs folder
    if (fs (inFolder folder name)).isSome then .error .raised
    else
      let new : Node := { kind := .link (linkDown target), mode := mode, attrs := copyHaikuAttributes attrs [] }
      .ok (Function.update (Function.update fs (inFolder folder name) (some new)) (entry name) none)
  | _, _ => .ok fs

def children (paths : List Path) (fs : Files) : List Text := (paths.filter fun p => (fs p).isSome).filterMap inApplications

/-- `categorize_deskbar_entries`. -/
def categorize (paths : List Path) (fs : Files) (categories : List (Text × Text)) (icons : List (Text × List UInt8)) : Except Stop Files :=
  if categories = [] then .ok fs
  else if behind fs applications then .error .behindLink
  else if ¬ isDir (fs applications) then .ok fs
  else (sorted (children paths fs)).foldlM (moveEntry categories icons) fs

/-- `re.subn(r'^vendor\s.*$', ...)`, with how many there were; the white space can be the end of the line. -/
def subVendor (line : Text) : List Text → List Text × Nat
  | [] => ([], 0)
  | l :: ls =>
    if l = "vendor".toList then
      match ls with
      | [] => ([l], 0)
      | _ :: ls => let r := subVendor line ls; (line :: r.1, r.2 + 1)
    else
      let r := subVendor line ls
      if "vendor".toList <+: l ∧ (l.drop 6).head?.any Char.isWhitespace then (line :: r.1, r.2 + 1) else (l :: r.1, r.2)

/-- What is written: the lines of the `.PackageInfo`, whose own entry nothing looks at, and the files. -/
structure Written where
  info : List Text
  fs : Files

def Tool.written (tool : Tool) (w : Written) : Attributes × Contents := (tool.attributes w.info, tool.contents w.fs)

/-- `copy_with_vendor`. -/
def copyWithVendor (p : Package) (vendor : Text) (categories : List (Text × Text)) (icons : List (Text × List UInt8))
    (blocked : List Text) : Except Stop Written := do
  let (info, count) := subVendor ("vendor\t\t\"".toList ++ vendor ++ "\"".toList) p.info
  if count ≠ 1 then .error .raised
  else
    let fs ← if blocked = [] then .ok p.tree.node else removeBlockedApps p.tree.paths p.tree.node blocked
    let fs ← categorize p.tree.paths fs categories icons
    .ok ⟨info, fs⟩

end LocalPackages
end Prose
