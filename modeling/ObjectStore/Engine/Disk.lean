import ObjectStore.Bytes
import ObjectStore.Engine.Path
import ObjectStore.SortedMap

/-!
# Disks

A disk is a tree of directories and files. It is kept as a map from places (the names on the way
down from the root) to what is there, so that its listing comes depth first with the names of each
directory in byte order.

A path leads to a place name by name, and each name but the last has to lead to a directory that is
there. So `a/../b` leads nowhere as long as there is no `a`, even where `b` is there.
-/

namespace ObjectStore

/-- What is at a place. -/
inductive Node where
  | directory
  | file (content : Bytes)
  deriving DecidableEq, Repr

/-- Why a path leads nowhere, or nothing can be made where it leads. -/
inductive PathError where
  /-- Something that the path needs is not there. -/
  | missing
  /-- A file is where a directory has to be. -/
  | notDirectory
  /-- A directory is where a file has to be. -/
  | isDirectory
  /-- One of the names has too many bytes. -/
  | longName
  /-- No disk takes the path, whatever there is. -/
  | unusable
  deriving DecidableEq, Repr

/-- The text of an error. -/
def PathError.message : PathError → String
  | .missing => "no such file or directory"
  | .notDirectory => "not a directory"
  | .isDirectory => "is a directory"
  | .longName => "name too long"
  | .unusable => "not a path"

/-- A tree of directories and files. -/
structure Disk where
  /-- What is at each place but the root. -/
  nodes : SortedMap (List String) Node := ∅
  deriving DecidableEq, Repr

namespace Disk

/-- What is at a place. The root is a directory. -/
def node? (d : Disk) (place : List String) : Option Node :=
  if place = [] then some .directory else d.nodes.get? place

/-- The content of a file. -/
def content? (d : Disk) (place : List String) : Option Bytes :=
  match d.node? place with
  | some (.file content) => some content
  | _ => none

/-- Puts a node at a place. -/
def set (d : Disk) (place : List String) (node : Node) : Disk where
  nodes := d.nodes.insert place node

/-! ## Where paths lead -/

/-- Goes on by one name from a place, where a directory has to be: `.` stays, `..` goes up, and any
other name goes down, to where something may be or not. -/
def enter (d : Disk) (place : List String) (name : String) : Except PathError (List String) :=
  match d.node? place with
  | none => .error .missing
  | some (.file _) => .error .notDirectory
  | some .directory =>
    if name = "." then .ok place
    else if name = ".." then .ok place.dropLast
    else if Path.nameLimit < name.utf8ByteSize then .error .longName
    else .ok (place ++ [name])

/-- The place that names lead to from the root. -/
def follow (d : Disk) (names : List String) : Except PathError (List String) :=
  names.foldlM d.enter []

/-- The place that a path leads to. -/
def locate (d : Disk) (path : String) : Except PathError (List String) :=
  if Path.isUsable path then
    match d.follow (Path.names path) with
    | .error err => .error err
    | .ok place =>
      if Path.endsInSlash path ∧ (d.content? place).isSome then .error .notDirectory
      else .ok place
  else .error .unusable

/-- What a path leads to, and its place. -/
def find (d : Disk) (path : String) : Except PathError (List String × Node) := do
  let place ← d.locate path
  match d.node? place with
  | some node => .ok (place, node)
  | none => .error .missing

/-- The content of the file that a path leads to. -/
def read? (d : Disk) (path : String) : Option Bytes :=
  match d.find path with
  | .ok (_, .file content) => some content
  | _ => none

/-! ## Directories -/

/-- The directory that names lead to, which is made if only the last of them is not there yet. -/
def makeDirectory (d : Disk) (names : List String) : Except PathError (List String × Disk) := do
  let place ← d.follow names
  match d.node? place with
  | some .directory => .ok (place, d)
  | some (.file _) => .error .notDirectory
  | none => .ok (place, d.set place .directory)

/-- Makes the directory at the first of some ways. If something on that way is missing, the directory
at the next way is made before. What was made stays there also when the rest fails. -/
def makeFirst (d : Disk) : (ways : List (List String)) → Except PathError (List String) × Disk
  | [] => (.error .missing, d)
  | way :: above =>
    match d.makeDirectory way with
    | .ok (place, d) => (.ok place, d)
    | .error .missing =>
      match d.makeFirst above with
      | (.error err, d) => (.error err, d)
      | (.ok _, d) =>
        match d.makeDirectory way with
        | .ok (place, d) => (.ok place, d)
        | .error err => (.error err, d)
    | .error err => (.error err, d)

/-- The directory that a path leads to, which is made with all directories above it that are not there
yet. -/
def makeDirectories (d : Disk) (path : String) : Except PathError (List String) × Disk :=
  if Path.isUsable path then d.makeFirst (Path.names path :: Path.above path)
  else (.error .unusable, d)

/-- Removes a directory with everything below it. -/
def remove (d : Disk) (place : List String) : Disk where
  nodes := d.nodes.filter fun p _ => !place.isPrefixOf p

/-- Everything below a place: the way down from there, and what is there, depth first. -/
def below (d : Disk) (place : List String) : List (List String × Node) :=
  d.nodes.entries.filterMap fun (p, node) =>
    if place <+: p ∧ p ≠ place then some (p.drop place.length, node) else none

/-! ## Files -/

/-- Opens a file and makes an empty one if there is none. Fails on a directory. -/
def openFile? (d : Disk) (place : List String) : Option (Bytes × Disk) :=
  match d.node? place with
  | some .directory => none
  | some (.file content) => some (content, d)
  | none => some ([], d.set place (.file []))

/-- Overwrites a file from an offset on; a gap before the offset fills with zeros. -/
def writeAt (d : Disk) (place : List String) (offset : Nat) (bs : Bytes) : Disk :=
  let old := (d.content? place).getD []
  let front := old.take offset
  let gap := List.replicate (offset - old.length) 0
  d.set place (.file (front ++ gap ++ bs ++ old.drop (offset + bs.length)))

/-- Cuts a file to a length. -/
def truncate (d : Disk) (place : List String) (length : Nat) : Disk :=
  match d.content? place with
  | some content => d.set place (.file (content.take length))
  | none => d

/-- Writes a whole file, or more of it at its end, and makes the directories above it. -/
def write (d : Disk) (path : String) (bs : Bytes) (append : Bool) :
    Except PathError Unit × Disk :=
  if Path.isUsable path then
    match d.makeFirst (Path.above path) with
    | (.error err, d) => (.error err, d)
    | (.ok _, d) =>
      match d.locate path with
      | .error err => (.error err, d)
      | .ok place =>
        match d.node? place with
        | some .directory => (.error .isDirectory, d)
        | some (.file old) => (.ok (), d.set place (.file (if append then old ++ bs else bs)))
        | none =>
          if Path.endsInSlash path then (.error .isDirectory, d)
          else (.ok (), d.set place (.file bs))
  else (.error .unusable, d)

/-- Changes the content of the file that a path leads to. Fails if there is no file, or `f` does. -/
def edit? (d : Disk) (path : String) (f : Bytes → Option Bytes) : Option Disk :=
  match d.find path with
  | .ok (place, .file content) => (f content).map fun content => d.set place (.file content)
  | _ => none

/-- Changes the bits of `mask` in one byte of a file. Fails if there is no such byte. -/
def flip? (d : Disk) (path : String) (position : Nat) (mask : UInt8) : Option Disk :=
  d.edit? path fun content =>
    content[position]?.map fun b => content.set position (b ^^^ mask)

/-- Cuts bytes off the end of a file; all of them if there are fewer. -/
def dropEnd? (d : Disk) (path : String) (count : Nat) : Option Disk :=
  d.edit? path fun content => some (content.take (content.length - count))

end Disk

end ObjectStore
