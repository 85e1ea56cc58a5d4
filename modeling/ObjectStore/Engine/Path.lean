/-!
# Paths

A path is a text of names with slashes between them, as callers write it. Where it leads depends on
the disk; this module holds what a path says by itself.
-/

namespace ObjectStore.Path

/-- The path of `part` below `base`. A path from the root stands for itself. -/
def join (base part : String) : String :=
  if part.toList.head? = some '/' then part
  else if base = "" ∨ base.toList.getLast? = some '/' then base ++ part
  else base ++ "/" ++ part

/-- The names of a path in order; slashes in a row count as one. -/
def names (path : String) : List String :=
  ((path.toList.splitOn '/').map String.ofList).filter (· ≠ "")

/-- Whether a path ends in a slash, and so leads to nothing but a directory. -/
def endsInSlash (path : String) : Bool :=
  path.toList.getLast? == some '/'

/-- The names on the way to each directory above a path, from the nearest one up to the root. They
are taken from the text: a name `..` is a directory below the one before it, and a name `.` is
none. -/
def above (path : String) : List (List String) :=
  let way := (names path).filter (· ≠ ".")
  (List.range way.length).reverse.map way.take

/-- The most bytes that a name can have. -/
def nameLimit : Nat := 255

/-- The most bytes that a path can have. -/
def limit : Nat := 4095

/-- Whether a disk takes a path at all: it holds no zero character and is not too long. -/
def isUsable (path : String) : Bool :=
  !path.toList.contains '\x00' && path.utf8ByteSize ≤ limit

end ObjectStore.Path
