/-!
# Engine options

What a caller asks for when an engine is opened under an id.
-/

namespace ObjectStore

/-- How sensitive the data of a store is. -/
inductive SecurityLevel where
  | notSet
  | s0
  | s1
  | s2
  | s3
  | s4
  deriving DecidableEq, Repr

/-- When a labelled store can be read. -/
inductive SecurityFlag where
  /-- After the first unlock. -/
  | ece
  /-- While unlocked. -/
  | sece
  deriving DecidableEq, Repr

/-- The security label of a store. -/
structure Security where
  level : SecurityLevel := .notSet
  flag : SecurityFlag := .ece
  deriving DecidableEq, Repr

/-- The options of one engine. -/
structure Options where
  /-- Make the store if it is not there. -/
  createIfMissing : Bool := true
  /-- Keep the store in memory only. -/
  memoryOnly : Bool := false
  /-- Name the directory by the store id alone, without application and user. -/
  directoryById : Bool := false
  /-- Encrypt the store. -/
  encrypted : Bool := false
  /-- Drop the damaged end of a log instead of refusing to open. -/
  removeCorrupted : Bool := false
  /-- Tell peers apart by user and application. -/
  dualTupleSync : Bool := false
  /-- The security label. -/
  security : Security := {}
  deriving DecidableEq, Repr

/-- Whether two sets of options name the same kind of store. What matters at opening time alone is
left out. -/
def Options.sameLayout (a b : Options) : Bool :=
  a.memoryOnly == b.memoryOnly && a.directoryById == b.directoryById &&
    a.encrypted == b.encrypted && a.security == b.security

end ObjectStore
