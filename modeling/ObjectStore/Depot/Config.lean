import ObjectStore.Engine.Options

/-!
# Depot configuration

What a depot opens its engine with.
-/

namespace ObjectStore

/-- The configuration of a depot. -/
structure Config where
  /-- The directory above all stores. -/
  base : String := "/data/service/el1/public/database/distributeddata/kvdb"
  /-- The application that stores are opened for. -/
  app : String := "distributeddata"
  /-- The user that stores are opened for. -/
  user : String := "default"
  /-- What the engine is opened with: stores are found by id, damaged ends of logs are dropped,
  peers are told apart by user and application, and data is of medium sensitivity. -/
  options : Options :=
    { directoryById := true
      removeCorrupted := true
      dualTupleSync := true
      security := { level := .s2 } }
  deriving DecidableEq, Repr

end ObjectStore
