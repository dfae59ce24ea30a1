import StackMachine.Command.Files

/-! File trees: directories, files and the null device in memory. A path leads part by part through directories,
from the root if it starts with a slash and otherwise from the home of the tree; a dot stays where it is and two
dots go up, as far as the root. There are no links, so that a place has one name in its directory. -/

namespace StackMachine

/-- What a place in a tree holds. -/
inductive Entry where
  | file (bytes : List UInt8)
  | directory
  /-- A device that takes all bytes and has none. -/
  | null
deriving DecidableEq

/-- A tree as its places, each the list of names on the way to it from the root. The root, the home and the
directories between them are always there. -/
structure FileTree where
  /-- Where paths start that do not start with a slash. -/
  home : List String
  entries : List (List String × Entry)
deriving DecidableEq

namespace FileTree

/-- A tree with an empty home, and the null device where it is found on Unix. -/
def empty : FileTree :=
  ⟨["tmp", "work"], [(["dev"], .directory), (["dev", "null"], .null)]⟩

/-- Whether a place is the home or a directory above it. -/
def isAbove (t : FileTree) (place : List String) : Bool :=
  place.isPrefixOf t.home

/-- What a place holds, if anything. -/
def entry? (t : FileTree) (place : List String) : Option Entry :=
  if t.isAbove place then some .directory else t.entries.lookup place

/-- Replaces what a place holds. -/
def put (t : FileTree) (place : List String) (e : Entry) : FileTree :=
  { t with entries := (place, e) :: t.entries.filter fun (other, _) => other ≠ place }

/-- The greatest size of one name in bytes. -/
def maxName : Nat := 255

/-- The greatest size of a path in bytes. -/
def maxPath : Nat := 4095

/-- The parts of a path. The empty path leads nowhere. -/
def parts (path : String) : Except FileError (List String) :=
  if maxPath < path.utf8ByteSize then .error .nameTooLong
  else if path = "" then .error .notFound
  else .ok ((path.toList.splitOn '/').map String.ofList)

/-- Where one part of a path leads from a directory. -/
def follow (place : List String) (part : String) : List String :=
  if part = "" ∨ part = "." then place
  else if part = ".." then place.dropLast
  else place ++ [part]

/-- Where the parts of a path lead from a place. Every part needs a directory to start from; the last place
itself may hold nothing. -/
def walk (t : FileTree) (place : List String) : List String → Except FileError (List String)
  | [] => .ok place
  | part :: rest =>
    match t.entry? place with
    | some .directory =>
      if maxName < part.utf8ByteSize then .error .nameTooLong else walk t (follow place part) rest
    | some _ => .error .notDirectory
    | none => .error .notFound

/-- Where a path starts. -/
def origin (t : FileTree) (path : String) : List String :=
  if path.toList.head? = some '/' then [] else t.home

/-- Where a path leads. -/
def resolve (t : FileTree) (path : String) : Except FileError (List String) := do
  t.walk (t.origin path) (← parts path)

/-- The bytes of a file. -/
def read (t : FileTree) (path : String) : Except FileError (List UInt8) := do
  match t.entry? (← t.resolve path) with
  | some (.file bytes) => return bytes
  | some .null => return []
  | some .directory => throw .isDirectory
  | none => throw .notFound

/-- Writes a file, new or not. A path that ends with a slash is taken for a directory, whatever its last name,
as soon as that name has a directory to stand in. The null device keeps nothing of what is written to it. -/
def write (t : FileTree) (path : String) (bytes : List UInt8) : Except FileError FileTree := do
  let way ← parts path
  if way.getLast? = some "" then
    -- The directory that the last name stands in is looked for first.
    let names := (way.reverse.dropWhile (· = "")).reverse
    let _ ← t.walk (t.origin path) (names.dropLast ++ [""])
    throw .isDirectory
  let place ← t.walk (t.origin path) way
  match t.entry? place with
  | some .directory => throw .isDirectory
  | some .null => return t
  | _ => return t.put place (.file bytes)

/-- The names in the directory at a place. Above the home, the way to it is one of them. -/
def namesAt (t : FileTree) (place : List String) : List String :=
  let wayHome := if t.isAbove place then (t.home.drop place.length).take 1 else []
  wayHome ++ t.entries.filterMap fun (other, _) => if other.dropLast = place then other.getLast? else none

/-- The names in a directory, if the path leads to one. -/
def names? (t : FileTree) (path : String) : Option (List String) :=
  match t.resolve path with
  | .ok place => if t.entry? place = some .directory then some (t.namesAt place) else none
  | .error _ => none

/-- Follows one part of a path from a place, which becomes a directory if it holds nothing. -/
def enter : FileTree × List String → String → FileTree × List String
  | (t, place), part => (if t.entry? place = none then t.put place .directory else t, follow place part)

/-- Adds what a path holds, with all directories on its way. -/
def add (t : FileTree) (path : String) (e : Entry) : FileTree :=
  match parts path with
  | .error _ => t
  | .ok way =>
    let (t, place) := way.foldl enter (t, t.origin path)
    if t.entry? place = some .directory then t else t.put place e

/-- The files in the home that are not in an earlier tree, or not with these bytes, in the order of their paths. -/
def changes (t before : FileTree) : List (String × List UInt8) :=
  let changed := t.entries.filterMap fun
    | (place, .file bytes) =>
      if !t.home.isPrefixOf place ∨ before.entry? place = some (.file bytes) then none
      else some ("/".intercalate (place.drop t.home.length), bytes)
    | _ => none
  changed.mergeSort fun a b => !(b.1 < a.1)

instance : Files (StateM FileTree) where
  read path := do return (← get).read path
  write path bytes := do
    match (← get).write path bytes with
    | .ok t =>
      set t
      return .ok ()
    | .error e => return .error e
  names? path := do return ((← get).names? path).map .ok

end FileTree

end StackMachine
