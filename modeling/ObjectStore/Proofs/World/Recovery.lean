import ObjectStore.Proofs.World.Commits
import ObjectStore.Proofs.World.Healthy

/-!
# Recovery

What a log gives back after a crash: wherever the log of a directory was cut off, a depot that is opened
there again by a new process holds what was held right after the last batch whose record is there as a
whole.

Main statement: `answers_of_cut`.
-/

namespace ObjectStore.World

open ObjectStore.Action Engine

/-! ## A first loan -/

section Loan

variable {w : World} {ref : ManagerRef} {m : Manager} {base id : String} {options : Options}
  {e : Engine} {disk : Disk}

/-- The engine of a store on disk is the one that its directory gives. -/
theorem exec_openStore (hencrypted : options.encrypted = false)
    (hmemory : options.memoryOnly = false) (hbase : m.base = some base)
    (hopen : Engine.openDirectory (Manager.storeDirectory m.app m.user base id options) id options
      m.networked w.isDirectoryHeld w.disk = (.ok e, disk)) :
    (openStore m id options).exec w = (.ok w.next, (addEngine { w with disk } e).2) := by
  unfold openStore
  simp only [hencrypted, hmemory, hbase, Bool.false_eq_true, if_false, exec_bind, exec_get, exec_set,
    exec_answer, openDirectory, hopen]
  rfl

theorem exec_managerOf (hm : w.managers.get? ref = some m) : (managerOf ref).exec w = (.ok m, w) := by
  unfold managerOf
  rw [exec_bind, exec_get]
  simp only [hm]
  rfl

/-- A manager that has not lent a store yet lends what the directory of the store gives. -/
theorem exec_lendEngine (hm : w.managers.get? ref = some m) (hid : Manager.checkId id = .ok ())
    (hloan : m.loans.get? id = none) (hencrypted : options.encrypted = false)
    (hmemory : options.memoryOnly = false) (hbase : m.base = some base)
    (hopen : Engine.openDirectory (Manager.storeDirectory m.app m.user base id options) id options
      m.networked w.isDirectoryHeld w.disk = (.ok e, disk)) :
    (lendEngine ref id options).exec w =
      (.ok w.next, modifyManager (addEngine { w with disk } e).2 ref fun m =>
        { m with loans := m.loans.insert id { engine := w.next, handles := 1 } }) := by
  unfold lendEngine
  rw [exec_bind, exec_managerOf hm]
  simp only [exec_bind, exec_answer, hid, hloan, exec_openStore hencrypted hmemory hbase hopen,
    exec_modify, exec_pure]

/-- The handle that is lent works if the switches of the manager are off. -/
theorem exec_lend (hm : w.managers.get? ref = some m) (hid : Manager.checkId id = .ok ())
    (hloan : m.loans.get? id = none) (hencrypted : options.encrypted = false)
    (hmemory : options.memoryOnly = false) (hbase : m.base = some base)
    (hopen : Engine.openDirectory (Manager.storeDirectory m.app m.user base id options) id options
      m.networked w.isDirectoryHeld w.disk = (.ok e, disk))
    (hoff : ∀ guard call, m.guard = some guard → guard.faults.blocks call = false) :
    ∃ handle w', (lend ref id options).exec w = (.ok handle, w') ∧
      w'.engines.get? handle.engine = some e ∧ Unblocked handle w' := by
  have hlend := exec_lendEngine hm hid hloan hencrypted hmemory hbase hopen
  unfold lend
  rw [exec_bind, exec_managerOf hm]
  simp only [exec_bind, hlend]
  generalize hw' : modifyManager (addEngine { w with disk } e).2 ref _ = w'
  have hengine : w'.engines.get? w.next = some e := by
    rw [← hw', engines_modifyManager]
    exact (SortedMap.get?_insert _ _ _ _).trans (if_pos rfl)
  have hmanager : (w'.managers.get? ref).map Manager.guard = some m.guard := by
    rw [← hw', get?_modifyManager, if_pos rfl]
    show ((w.managers.get? ref).map _).map _ = _
    rw [hm]
    rfl
  -- A guarded manager wraps the engine, and its switches are off.
  cases hguard : m.guard with
  | none => exact ⟨.direct w.next, w', rfl, hengine, trivial⟩
  | some guard =>
      refine ⟨.wrapped w'.next ref w.next, (wrap ref w.next w').2, rfl, ?_, ?_⟩
      · rw [wrap, engines_modifyManager]
        exact hengine
      · intro m' guard' call hm' hguard'
        obtain ⟨m₁, hm₁, hguard₁⟩ := Option.map_eq_some_iff.mp hmanager
        rw [wrap, get?_modifyManager, if_pos rfl, show
          ({ w' with next := w'.next + 1 } : World).managers.get? ref = some m₁ from hm₁,
          Option.map_some] at hm'
        cases hm'
        rw [hguard] at hguard₁
        simp only [hguard₁, Option.map_some, Option.some.injEq] at hguard'
        rw [← hguard']
        exact hoff guard call hguard

end Loan

/-! ## A new process -/

/-- The depot of a name is ready, and scans and reads of objects answer what the table says. -/
def Answers (w : World) (name : String) (t : Table) : Prop :=
  ∃ d handle, w.depots.get? name = some d ∧ d.phase = .ready handle ∧
    (∀ front, ((scan handle front).exec w).1 = .ok (t.scan front)) ∧
    (∀ key, ((withObjects d fun kv codec => Access.get kv codec key).exec w).1 =
      t.object .cbor key) ∧
    ∀ front, ((withObjects d fun kv codec => Access.getAll kv codec front).exec w).1 =
      .ok (t.objects .cbor front)

/-- A depot that is ready on a handle that works answers what the table behind the handle says. -/
theorem answers_of_healthy {w : World} {name : String} {d : Depot} {handle : Handle}
    (hd : w.depots.get? name = some d) (hphase : d.phase = .ready handle)
    (hcodec : d.codecFaults = none) (hw : Healthy handle w) : Answers w name (content handle w) :=
  ⟨d, handle, hd, hphase, scan_of_healthy hw, get_of_healthy hphase hcodec hw,
    getAll_of_healthy hphase hcodec hw⟩

/-- A depot that is opened where no engine is open yet answers what its directory gives. -/
theorem answers_of_startNamed {w : World} {name : String} {d : Depot} {m : Manager} {e : Engine}
    {disk : Disk} (hphase : d.phase = .uninitialized) (hcodec : d.codecFaults = none)
    (hm : w.managers.get? d.manager = some m) (hloan : m.loans.get? d.id = none)
    (hoff : ∀ guard call, m.guard = some guard → guard.faults.blocks call = false)
    (hengines : w.engines = ∅) (hid : Manager.checkId d.id = .ok ())
    (hencrypted : d.config.options.encrypted = false)
    (hmemory : d.config.options.memoryOnly = false)
    (hopen : Engine.openDirectory
      (Manager.storeDirectory m.app m.user d.config.base d.id d.config.options) d.id d.config.options
      m.networked (fun _ => false) w.disk = (.ok e, disk))
    (hopened : e.isClosed = false) :
    Answers ((startNamed name d).exec w).2 name e.table := by
  -- The manager takes the base directory of the depot before it lends the engine.
  let w₁ := w.modifyManager d.manager fun m => { m with base := some d.config.base }
  have hm₁ : w₁.managers.get? d.manager = some { m with base := some d.config.base } := by
    rw [get?_modifyManager, if_pos rfl, hm]
    rfl
  -- There is no engine yet that could have the directory open.
  have hheld : w₁.isDirectoryHeld = fun _ => false := by
    funext place
    unfold isDirectoryHeld
    rw [engines_modifyManager, hengines]
    rfl
  have hdisk : w₁.disk = w.disk := disk_modifyManager _ _ _
  rw [← hheld, ← hdisk] at hopen
  obtain ⟨handle, w₂, hlend, hengine, hunblocked⟩ :=
    exec_lend hm₁ hid hloan hencrypted hmemory rfl hopen hoff
  have hstart : (startNamed name d).exec w =
      (.ok (), w₂.setDepot name { d with phase := .ready handle }) := by
    unfold startNamed start
    simp only [hphase, exec_bind, exec_modify, exec_mapError]
    rw [hlend]
    rfl
  have hhealthy : Healthy handle (w₂.setDepot name { d with phase := .ready handle }) :=
    ⟨⟨e, hengine, hopened⟩, hunblocked⟩
  have hd : (w₂.setDepot name { d with phase := .ready handle }).depots.get? name =
      some { d with phase := .ready handle } :=
    (SortedMap.get?_insert _ _ _ _).trans (if_pos rfl)
  have hanswers := answers_of_healthy hd rfl hcodec hhealthy
  rw [hstart, ← content_of_get? hengine]
  exact hanswers

/-- What a new process calls to open one store. -/
def opening (manager name app user id : String) (config : Config) (networked guarded : Bool) :
    List Call :=
  [.addManager manager app user none networked guarded, .addDepot name manager id config,
    .start name]

/-- A store that a new process opens answers what its directory gives. -/
theorem answers_of_opening {disk disk' : Disk} {app user id : String} {config : Config}
    {networked : Bool} {e : Engine} (hid : Manager.checkId id = .ok ())
    (hencrypted : config.options.encrypted = false) (hmemory : config.options.memoryOnly = false)
    (hopen : Engine.openDirectory (Manager.storeDirectory app user config.base id config.options) id
      config.options networked (fun _ => false) disk = (.ok e, disk'))
    (hopened : e.isClosed = false) (manager name : String) (guarded : Bool) :
    Answers (run { disk } (opening manager name app user id config networked guarded)) name
      e.table := by
  let d : Depot := { id, manager := 0, managerName := manager, config }
  let m : Manager := { app, user, networked, guard := if guarded then some {} else none }
  let w : World :=
    { disk
      next := 1
      managers := (∅ : SortedMap ManagerRef Manager).insert 0 m
      managerNames := (∅ : SortedMap String ManagerRef).insert manager 0
      depots := (∅ : SortedMap String Depot).insert name d }
  have hd : w.depots.get? name = some d := (SortedMap.get?_insert _ _ _ _).trans (if_pos rfl)
  have hm : w.managers.get? 0 = some m := (SortedMap.get?_insert _ _ _ _).trans (if_pos rfl)
  have hmanager : w.managerNames.get? manager = some 0 :=
    (SortedMap.get?_insert _ _ _ _).trans (if_pos rfl)
  -- The name is new, so that there is no depot to be closed.
  have hadded : step { w with depots := ∅ } (.addDepot name manager id config) = w := by
    simp only [step, show ({ w with depots := ∅ } : World).managerNames.get? manager = some 0 from
      hmanager]
    rfl
  have hrun : run { disk } (opening manager name app user id config networked guarded) =
      ((startNamed name d).exec w).2 := by
    show step (step { w with depots := ∅ } (.addDepot name manager id config)) (.start name) = _
    rw [hadded]
    simp only [step, onDepot, hd]
  have hoff : ∀ guard call, m.guard = some guard → guard.faults.blocks call = false := by
    intro guard call hguard
    cases guarded with
    | false => cases hguard
    | true =>
        cases hguard
        cases call <;> rfl
  rw [hrun]
  exact answers_of_startNamed rfl rfl hm rfl hoff rfl hid hencrypted hmemory hopen hopened

/-! ## Logs that were cut off -/

/-- Wherever the log of a directory is cut off after a run, a store that a new process opens there, with
the damaged end dropped, answers what was there right after the last batch that was committed and whose
record is left as a whole. All records are left if nothing is cut off. -/
theorem answers_of_cut {disk : Disk} (hfresh : ∀ place, disk.content? (logPlace place) = none)
    (calls : List Call) {place : List String} {bytes : Bytes}
    (hlog : (run { disk } calls).disk.content? (logPlace place) = some bytes) :
    ∃ commits, Traces place { disk } calls commits ∧
      Log.encodeAll (commits.map Commit.batch) = .ok bytes ∧
      Log.recordsWithin (commits.map Commit.batch) bytes.length = commits.length ∧
      ∀ n ≤ bytes.length, ∀ (app user id : String) (config : Config),
        Manager.checkId id = .ok () → config.options.encrypted = false →
        config.options.memoryOnly = false → config.options.removeCorrupted = true →
        (run { disk } calls).disk.find
          (Manager.storeDirectory app user config.base id config.options) = .ok (place, .directory) →
        ∀ (manager name : String) (networked guarded : Bool),
          Answers
            (run { disk := (run { disk } calls).disk.truncate (logPlace place) n }
              (opening manager name app user id config networked guarded))
            name (tableAfter (commits.take (Log.recordsWithin (commits.map Commit.batch) n))) := by
  have hplain : Plain { disk } := by
    intro name d hd
    cases hd
  have hconsistent := consistent_of_disk hfresh
  obtain ⟨commits, htraces, hlogged⟩ :=
    exists_traces hconsistent hplain (hfresh place) calls
  -- The log is locked and holds the records of the commits, and nothing else.
  have hafter := hconsistent.moves (moves_run hconsistent hplain calls).1
  have hencoded := hlogged.encodeAll_of_content hlog
  have hall := Log.recordsWithin_length hencoded
  rw [List.length_map] at hall
  refine ⟨commits, htraces, hencoded, hall, ?_⟩
  intro n hn app user id config hid hencrypted hmemory hremove hfind manager name networked guarded
  generalize run { disk } calls = w at hlog hlogged hafter hfind
  obtain ⟨lock, hlock⟩ := Option.isSome_iff_exists.mp (hafter.logs place bytes hlog).1
  -- The cut touches nothing but the log.
  have hcut := Disk.content?_truncate_self (logPlace_ne_nil place) hlog n
  have hlock' := (Disk.content?_truncate_of_ne w.disk
    (logPlace_ne_lockPlace place place).symm n).trans hlock
  have hfind' := (Disk.KeepsDirectories.truncate w.disk (logPlace place) n).find hfind
  obtain ⟨e, disk', bs, hrecover, hopened, hpersists⟩ := recover_of_take
    (Manager.storeDirectory app user config.base id config.options) id config.options networked
    hencoded hn hcut hremove
  -- The recovered batches are the front part of the commits that the cut has left as a whole.
  have htable : e.table =
      tableAfter (commits.take (Log.recordsWithin (commits.map Commit.batch) n)) := by
    rw [hpersists.table, hlogged.tables, List.map_take]
  rw [← htable]
  have hopen := openDirectory_of_find _ id config.options networked (fun _ => false) hfind' hlock'
    hcut rfl
  rw [hrecover] at hopen
  exact answers_of_opening hid hencrypted hmemory hopen hopened manager name guarded

/-- The last byte of the log is cut off after an update, in the middle of its last record. -/
theorem answers_of_cut_update :
    let calls : List Call :=
      [.addManager "m" "app" "user" none false false, .addDepot "s" "m" "drag" { base := "/b" },
        .start "s", .edit "s" (.put (DataObject.sample "g" 2)),
        .edit "s" (.update (DataObject.sample "g" 1))]
    let place := ["b", "drag"]
    ∃ bytes commits, (run {} calls).disk.content? (logPlace place) = some bytes ∧
      Traces place {} calls commits ∧
      Answers
        (run { disk := (run {} calls).disk.truncate (logPlace place) (bytes.length - 1) }
          (opening "n" "t" "app" "user" "drag" { base := "/b" } false true))
        "t"
        (tableAfter
          (commits.take (Log.recordsWithin (commits.map Commit.batch) (bytes.length - 1)))) := by
  intro calls place
  have hsome : ((run {} calls).disk.content? (logPlace place)).isSome = true := by decide +kernel
  obtain ⟨bytes, hlog⟩ := Option.isSome_iff_exists.mp hsome
  have hfind : ((run {} calls).disk.find
      (Manager.storeDirectory "app" "user" "/b" "drag" ({} : Config).options)).toOption =
        some (place, .directory) := by
    decide +kernel
  have hfresh (place : List String) : ({} : Disk).content? (logPlace place) = none := by
    simp [Disk.content?, Disk.node?, logPlace_ne_nil]
  obtain ⟨commits, htraces, -, -, hcut⟩ := answers_of_cut hfresh calls hlog
  refine ⟨bytes, commits, hlog, htraces, ?_⟩
  have hfind' := Answer.toOption_eq_some_iff.mp hfind
  exact hcut _ (Nat.sub_le _ _) "app" "user" "drag" { base := "/b" } (by decide) rfl rfl rfl hfind'
    "n" "t" false true

end ObjectStore.World
