import Chunkwise.Bytes
import Chunkwise.Failure

/-!
# File trees

Files, and directories with what is in them, seen from a working directory. A path leads to a place among them (`resolve`),
where there is something to read (`readAt`) or to list (`listAt`), unless something bars it. From a place one can go
through all that is below it (`texts`): level by level in the order of the names, past those that are hidden, and up to
the first directory that cannot be listed. Symbolic links are not among the entries.
-/

namespace Chunkwise
namespace FileTree

/-! ## Names and entries -/

/-- The byte between the parts of a path. -/
def slash : UInt8 := 0x2F

/-- The byte that hidden names begin with. -/
def dot : UInt8 := 0x2E

/-- The greatest number of bytes of a name. -/
def nameLimit : Nat := 255

/-- The least number of bytes of a path that is too long. -/
def pathLimit : Nat := 4096

/-- Whether bytes can be the name of an entry: one part of a path, which leads elsewhere than to the directory itself
or the one around it. -/
def isName (bytes : Bytes) : Bool :=
  !bytes.contains slash && !bytes.contains 0 && bytes != [] && bytes != [dot] && bytes != [dot, dot] &&
    bytes.length ≤ nameLimit

/-- The name of an entry. -/
structure Name where
  bytes : Bytes
  valid : isName bytes
deriving DecidableEq

namespace Name

/-- The name that is a string. -/
def of (s : String) (h : isName (bytesOf s) := by decide +kernel) : Name := ⟨bytesOf s, h⟩

/-- The name with some bytes, if they can be a name. -/
def ofBytes? (bytes : Bytes) : Option Name := if h : isName bytes then some ⟨bytes, h⟩ else none

/-- Whether a name is hidden: a text that begins with a dot. -/
def isHidden (name : Name) : Bool := name.bytes.text?.any fun text => text.head? == some '.'

end Name

/-- What keeps a directory from being used, if something does. -/
structure Bars where
  /-- Why its entries cannot be listed. -/
  listing : Option ReadError := none
  /-- Why nothing in it can be reached. -/
  passing : Option ReadError := none

/-- What there is at a place. -/
inductive Entry where
  /-- A regular file, with what a reader is given. -/
  | file (given : Except ReadError Bytes)
  /-- Something else that is no directory, with what a reader is given. -/
  | special (given : Except ReadError Bytes)
  /-- A directory with named entries. -/
  | dir (bars : Bars) (entries : List (Name × Entry))

namespace Entry

/-- A file with a text. -/
def text (s : String) : Entry := file (.ok (bytesOf s))

/-- A directory that nothing keeps from being used. -/
def folder (entries : List (Name × Entry)) : Entry := dir {} entries

end Entry

/-- The entry with some bytes as its name. -/
def find? (part : Bytes) (entries : List (Name × Entry)) : Option Entry :=
  (entries.find? fun e => e.1.bytes == part).map (·.2)

end FileTree

open FileTree in
/-- Files and directories, and the names that lead to the working directory. -/
structure FileTree where
  root : Entry
  here : List Name := []

namespace FileTree

/-- The name of the working directory where nothing else is known of it. -/
def workName : Name := .of "work"

/-- A working directory without entries. -/
def empty : FileTree := { root := .folder [(workName, .folder [])], here := [workName] }

/-! ## Along a path -/

/-- An entry with the directories around it, the nearest first. -/
structure Place where
  entry : Entry
  above : List Entry

/-- The place that one part of a path leads to. The root is around itself. -/
def Place.step (place : Place) (part : Bytes) : Except ReadError Place :=
  match place.entry with
  | .dir bars entries =>
    if part = [] then .ok place
    else
      match bars.passing with
      | some reason => .error reason
      | none =>
        if part = [dot] then .ok place
        else if part = [dot, dot] then .ok ⟨place.above.headD place.entry, place.above.tail⟩
        else if nameLimit < part.length then .error .nameTooLong
        else
          match find? part entries with
          | none => .error .notFound
          | some entry => .ok ⟨entry, place.entry :: place.above⟩
  | _ => .error .notDirectory

/-- The place that the parts of a path lead to. -/
def walk (place : Place) (parts : List Bytes) : Except ReadError Place := parts.foldlM Place.step place

/-- The parts of a path from the root on. -/
def partsOf (files : FileTree) (path : Bytes) : List Bytes :=
  if path.head? = some slash then path.splitOn slash else files.here.map (·.bytes) ++ path.splitOn slash

/-- What a path leads to. -/
def resolve (files : FileTree) (path : Bytes) : Except ReadError Entry :=
  if path.contains 0 then .error .nulInName
  else if path = [] then .error .notFound
  else if pathLimit ≤ path.length then .error .nameTooLong
  else (walk ⟨files.root, []⟩ (files.partsOf path)).map (·.entry)

/-- Whether a path leads anywhere. -/
def hasPath (files : FileTree) (path : Bytes) : Bool := (files.resolve path).toOption.isSome

/-- The text of what a path leads to. -/
def readAt (files : FileTree) (path : Bytes) : Except ReadError Text :=
  match files.resolve path with
  | .error reason => .error reason
  | .ok (.dir bars _) => .error (bars.listing.getD .isDirectory)
  | .ok (.file given) | .ok (.special given) =>
    match given with
    | .error reason => .error reason
    | .ok bytes =>
      match bytes.text? with
      | some text => .ok text
      | none => .error .notText

/-- The text of the file that a path leads to. -/
def read (files : FileTree) (path : String) : Except ReadError Text := files.readAt (bytesOf path)

/-- The entries of what a path leads to. -/
def listAt (files : FileTree) (path : Bytes) : Except ReadError (List (Name × Entry)) :=
  match files.resolve path with
  | .error reason => .error reason
  | .ok (.dir bars entries) =>
    match bars.listing with
    | some reason => .error reason
    | none => .ok entries
  | .ok _ => .error .notDirectory

/-! ## All that is below a place -/

/-- The path of an entry of the directory at a path. -/
def join (path : Bytes) (name : Name) : Bytes :=
  if path = [] ∨ path.getLast? = some slash then path ++ name.bytes else path ++ slash :: name.bytes

/-- An outcome and then another one: all that they found, or else the first error. -/
def follow {α : Type} : Except WalkError (List α) → Except WalkError (List α) → Except WalkError (List α)
  | .error e, _ => .error e
  | .ok _, .error e => .error e
  | .ok found, .ok more => .ok (found ++ more)

/-- Outcomes one after the other. -/
def gather {α : Type} (outcomes : List (Except WalkError (List α))) : Except WalkError (List α) :=
  outcomes.foldr follow (.ok [])

/-- Puts something with a name before the first that does not come before it. -/
def placed {α : Type} (item : Name × α) : List (Name × α) → List (Name × α)
  | [] => [item]
  | other :: rest => if item.1.bytes ≤ other.1.bytes then item :: other :: rest else other :: placed item rest

/-- Things with names in the order of the names. -/
def byName {α : Type} (items : List (Name × α)) : List (Name × α) := items.foldr placed []

mutual

/-- The regular files at or below a path that can be read as texts, with their paths, in the order of the names at every
level. Hidden entries are left out. -/
def texts (files : FileTree) (path : Bytes) : Entry → Except WalkError (List (Bytes × Text))
  | .file _ =>
    match files.readAt path with
    | .error _ => .ok []
    | .ok text => .ok [(path, text)]
  | .special _ => .ok []
  | .dir _ entries =>
    match files.listAt path with
    | .error reason => .error ⟨shown path, reason⟩
    | .ok _ => gather ((byName (listings files path entries)).map (·.2))

/-- The visible entries of the directory at a path, each with the texts at or below it. -/
def listings (files : FileTree) (path : Bytes) :
    List (Name × Entry) → List (Name × Except WalkError (List (Bytes × Text)))
  | [] => []
  | (name, entry) :: rest =>
    if name.isHidden then listings files path rest
    else (name, texts files (join path name) entry) :: listings files path rest

end

/-! ## Building a tree -/

/-- Puts something where names lead, in place of what is there; directories on the way are made. -/
def Entry.put (change : Option Entry → Entry) : List Name → Option Entry → Entry
  | [], there => change there
  | name :: rest, there =>
    let (bars, entries) := match there with
      | some (.dir bars entries) => (bars, entries)
      | _ => ({}, [])
    .dir bars ((name, put change rest (find? name.bytes entries)) :: entries.filter (·.1 ≠ name))

/-- The tree with something at a path from the working directory. -/
def put (change : Option Entry → Entry) (path : String) (files : FileTree) : FileTree :=
  let names := ((bytesOf path).splitOn slash).filterMap Name.ofBytes?
  { files with root := Entry.put change (files.here ++ names) (some files.root) }

/-- The tree with a file at a path. -/
def write (path : String) (bytes : Bytes) (files : FileTree) : FileTree := files.put (fun _ => .file (.ok bytes)) path

/-- The tree with a directory at a path. -/
def makeDir (path : String) (files : FileTree) : FileTree :=
  files.put (fun there => match there with
    | some (.dir bars entries) => .dir bars entries
    | _ => .folder []) path

end FileTree
end Chunkwise
