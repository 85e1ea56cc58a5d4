import ObjectStore.Depot.Basic
import ObjectStore.Engine.Disk

/-!
# Worlds

A world is everything that stores share: one disk, one network of devices, the managers with their
engines, and the names under which callers hold managers, handles and depots.

Engines and managers are never taken out of a world; what counts is whether they are still held.
`isManagerHeld` and `isEngineHeld` say so: a manager is held by its name or by a depot, an engine by
a named handle, by a held manager or by a depot that is ready. A manager that is no longer held is
out of reach of the network, and an engine that is no longer held has let go of its directory.
-/

namespace ObjectStore

/-- Everything that stores share. -/
structure World where
  disk : Disk := {}
  /-- The next reference or serial number to be given out. -/
  next : Nat := 0
  /-- All engines that were ever opened. -/
  engines : SortedMap EngineRef Engine := ∅
  /-- All managers that were ever made. -/
  managers : SortedMap ManagerRef Manager := ∅
  /-- The managers of the devices of the network. -/
  devices : SortedMap String ManagerRef := ∅
  /-- The managers that callers hold, by name. -/
  managerNames : SortedMap String ManagerRef := ∅
  /-- The handles that callers hold, by name. -/
  handleNames : SortedMap String Handle := ∅
  /-- The depots, by name. -/
  depots : SortedMap String Depot := ∅
  deriving DecidableEq, Repr

namespace World

/-! ## What is held -/

/-- Whether a manager is held by name or by a depot. -/
def isManagerHeld (w : World) (manager : ManagerRef) : Bool :=
  w.managerNames.values.contains manager ||
    w.depots.values.any fun depot => depot.manager == manager

/-- Whether an engine is held by a named handle, a held manager or a depot. -/
def isEngineHeld (w : World) (engine : EngineRef) : Bool :=
  w.handleNames.values.any (fun handle => handle.engine == engine) ||
    (w.managers.entries.any fun (ref, m) => w.isManagerHeld ref && m.holds engine) ||
    w.depots.values.any fun depot => depot.handle?.any fun handle => handle.engine == engine

/-- Whether an engine that is held has the directory at a place open. -/
def isDirectoryHeld (w : World) (place : List String) : Bool :=
  w.engines.entries.any fun (ref, e) => w.isEngineHeld ref && e.directory? == some place

/-! ## Making managers and engines -/

/-- Adds a manager that nobody holds yet. -/
def addManager (w : World) (m : Manager) : ManagerRef × World :=
  (w.next, { w with next := w.next + 1, managers := w.managers.insert w.next m })

/-- Adds an engine that nobody holds yet. -/
def addEngine (w : World) (e : Engine) : EngineRef × World :=
  (w.next, { w with next := w.next + 1, engines := w.engines.insert w.next e })

/-- Changes a manager. -/
def modifyManager (w : World) (ref : ManagerRef) (f : Manager → Manager) : World :=
  match w.managers.get? ref with
  | some m => { w with managers := w.managers.insert ref (f m) }
  | none => w

/-- Opens an engine on the directory at a path. -/
def openDirectory (path id : String) (options : Options) (networked : Bool) (w : World) :
    Except StorageError EngineRef × World :=
  let (opened, disk) := Engine.openDirectory path id options networked w.isDirectoryHeld w.disk
  match opened with
  | .error err => (.error err, { w with disk })
  | .ok e =>
    let (ref, w) := addEngine { w with disk } e
    (.ok ref, w)

/-- Removes a directory from the disk with everything below it. Engines that have it open lose their
directory with it. -/
def removeDirectory (w : World) (place : List String) : World :=
  { w with
    disk := w.disk.remove place
    engines := w.engines.map fun e => e.leave place }

/-! ## The network -/

/-- Makes a manager reachable as a device. -/
def register (w : World) (device : String) (manager : ManagerRef) : World :=
  { w with devices := w.devices.insert device manager }

/-- Takes a device off the network. -/
def unregister (w : World) (device : String) : World :=
  { w with devices := w.devices.erase device }

/-- The manager of a device, if the device is registered and its manager still held. -/
def resolve (w : World) (device : String) : Option ManagerRef :=
  (w.devices.get? device).filter w.isManagerHeld

end World

end ObjectStore
