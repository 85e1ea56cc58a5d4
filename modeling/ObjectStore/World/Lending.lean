import ObjectStore.World.Calls

/-!
# Lending engines

A manager opens the engine of a store with its first loan, lends the same engine to everyone who asks
for the same kind of store under the same id, and closes it when the last loan comes back. A guarded
manager lends a new wrapper each time.
-/

namespace ObjectStore.World

/-- The manager of a reference. -/
def managerOf (ref : ManagerRef) : Action World StorageError Manager := do
  match (← get).managers.get? ref with
  | some m => return m
  | none => throw (.invalidArgs "unknown manager")

/-- Opens the engine of a store that is not on loan yet. -/
def openStore (m : Manager) (id : String) (options : Options) :
    Action World StorageError EngineRef := do
  if options.encrypted then throw (.notSupported "encrypted stores are not available")
  else if options.memoryOnly then
    let (ref, w) := (← get).addEngine { id, options, networked := m.networked }
    set w
    return ref
  else
    match m.base with
    | none => throw (.invalidArgs "manager config has no base directory")
    | some base =>
      let path := Manager.storeDirectory m.app m.user base id options
      let (opened, w) := openDirectory path id options m.networked (← get)
      set w
      Action.answer opened

/-- Counts one more loan of a store, and opens its engine with the first. -/
def lendEngine (ref : ManagerRef) (id : String) (options : Options) :
    Action World StorageError EngineRef := do
  let m ← managerOf ref
  Action.answer (Manager.checkId id)
  match m.loans.get? id with
  | some loan =>
    let e ← engineOf (.direct loan.engine)
    if e.options.sameLayout options then
      modify fun w => w.modifyManager ref fun m =>
        { m with loans := m.loans.insert id { loan with handles := loan.handles + 1 } }
      return loan.engine
    else throw (.invalidArgs s!"store {id} is already open with different options")
  | none =>
    let engine ← openStore m id options
    modify fun w => w.modifyManager ref fun m =>
      { m with loans := m.loans.insert id { engine, handles := 1 } }
    return engine

/-- Counts one loan less of the store with the given id, if the engine is the one on loan, and closes
the engine with the last. -/
def reclaimEngine (ref : ManagerRef) (id : String) (engine : EngineRef) :
    Action World StorageError Unit := do
  let m ← managerOf ref
  match m.loans.get? id with
  | none => throw (.storeNotFound id)
  | some loan =>
    if loan.engine = engine then
      if 1 < loan.handles then
        modify fun w => w.modifyManager ref fun m =>
          { m with loans := m.loans.insert id { loan with handles := loan.handles - 1 } }
      else
        modify fun w => closeEngine (w.modifyManager ref fun m =>
          { m with loans := m.loans.erase id }) engine
    else throw (.storeNotFound id)

/-- Wraps an engine for one more caller of a guarded manager. -/
def wrap (ref : ManagerRef) (engine : EngineRef) (w : World) : Handle × World :=
  let serial := w.next
  let w := { w with next := w.next + 1 }
  (.wrapped serial ref engine,
    w.modifyManager ref fun m =>
      { m with
        guard := m.guard.map fun guard =>
          { guard with wrappers := guard.wrappers ++ [(serial, engine)] } })

/-- Lends the engine of a store. -/
def lend (ref : ManagerRef) (id : String) (options : Options) : Action World StorageError Handle := do
  let m ← managerOf ref
  let engine ← lendEngine ref id options
  if m.guard.isSome then
    let (handle, w) := wrap ref engine (← get)
    set w
    return handle
  else return .direct engine

/-- Takes a handle back. A manager without guard takes back the engine that it has on loan, a guarded
one a wrapper that it has lent out. -/
def reclaim (ref : ManagerRef) (handle : Handle) : Action World StorageError Unit := do
  let m ← managerOf ref
  let e ← engineOf handle
  match m.guard, handle with
  | none, .direct engine => reclaimEngine ref e.id engine
  | some guard, .wrapped serial lender engine =>
    if lender = ref ∧ guard.wrappers.contains (serial, engine) then
      -- The wrapper is gone whether or not the loan can be given back. In which order the others stand
      -- then is never observed: only a wrapper itself is looked for, or the first one of a store, and
      -- all wrappers of a store have the same engine.
      modify fun w => w.modifyManager ref fun m =>
        { m with
          guard := some { guard with wrappers := guard.wrappers.erase (serial, engine) } }
      reclaimEngine ref e.id engine
    else throw (.storeNotFound e.id)
  | _, _ => throw (.storeNotFound e.id)

/-- How many entries an engine behind a guarded manager has under a front part, past all switches;
none if no wrapper of that store is lent out. -/
def rawCount (w : World) (m : Manager) (id : String) (front : Bytes) : Nat :=
  let engines := (m.guard.map Guard.wrappers).getD [] |>.filterMap fun wrapper =>
    w.engines.get? wrapper.2
  match engines.find? fun e => e.id == id with
  | none => 0
  | some e =>
    match e.scan front with
    | .ok entries => entries.length
    | .error _ => 0

end ObjectStore.World
