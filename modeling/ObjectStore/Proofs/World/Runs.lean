import ObjectStore.Object.Sample
import ObjectStore.Proofs.Depot.Edits
import ObjectStore.Proofs.World.Lending

/-!
# Runs

A run is any list of calls to managers, depots and the network of devices, in any order: managers and
depots come and go, depots are opened and closed, switches are flipped, objects are written, read and
pushed. Every call is a number of moves, so that every run keeps a world consistent, and every table of
an engine that was ever opened is a table of whole objects.

Main statements: `moves_step` and `represented_of_run`.
-/

namespace ObjectStore.World

open ObjectStore.Action

/-! ## Calls -/

/-- What callers do. Managers and depots are given by their names. -/
inductive Call where
  | addManager (name app user : String) (base : Option String) (networked guarded : Bool)
  | dropManager (name : String)
  | register (device manager : String)
  | unregister (device : String)
  /-- Set the switches and counters of a guarded manager. -/
  | setFaults (manager : String) (faults : Faults)
  | addDepot (name manager id : String) (config : Config)
  | dropDepot (name : String)
  | start (depot : String)
  | stop (depot : String)
  /-- Change the objects of a depot. -/
  | edit (depot : String) (edit : Access.Edit)
  | get (depot key : String)
  | getSummary (depot key : String)
  | getAll (depot front : String)
  | sync (depot : String) (devices : List String)
  deriving DecidableEq, Repr

/-- Does something with the depot of a name, if there is one. -/
def onDepot {α : Type} (w : World) (name : String) (act : Depot → Action World DepotError α) :
    World :=
  match w.depots.get? name with
  | some d => ((act d).exec w).2
  | none => w

/-- What a call leaves behind, whatever it answers. -/
def step (w : World) : Call → World
  | .addManager name app user base networked guarded =>
    let guard := if guarded then some {} else none
    let (manager, w) := w.addManager { app, user, base, networked, guard }
    w.nameManager name manager
  | .dropManager name => w.dropManager name
  | .register device manager =>
    match w.managerNames.get? manager with
    | some ref => w.register device ref
    | none => w
  | .unregister device => w.unregister device
  | .setFaults manager faults =>
    match w.managerNames.get? manager with
    | some ref => w.modifyManager ref fun m =>
      { m with guard := m.guard.map fun guard => { guard with faults } }
    | none => w
  | .addDepot name manager id config =>
    match w.managerNames.get? manager with
    | some ref => w.nameDepot name { id, manager := ref, managerName := manager, config }
    | none => w
  | .dropDepot name => w.dropDepot name
  | .start name => w.onDepot name (startNamed name)
  | .stop name => w.onDepot name fun d => always (stopNamed name d)
  | .edit name edit =>
    w.onDepot name fun d => withObjects d fun kv codec => edit.act kv codec
  | .get name key => w.onDepot name fun d => withObjects d fun kv codec => Access.get kv codec key
  | .getSummary name key =>
    w.onDepot name fun d => withObjects d fun kv codec => Access.getSummary kv codec key
  | .getAll name front =>
    w.onDepot name fun d => withObjects d fun kv codec => Access.getAll kv codec front
  | .sync name devices => w.onDepot name fun d => syncDepot d devices

/-- The world after all calls. -/
def run (w : World) (calls : List Call) : World :=
  calls.foldl step w

/-! ## Objects -/

section Objects

variable {w : World} {handle : Handle}

/-- What is done with objects through a handle whose engine is held is a number of moves. -/
theorem Serves.evolves_of_ensures {α : Type} {act : Action World DepotError α}
    {ok : α → World → Prop} {failed : DepotError → World → Prop} (h : act.Ensures w ok failed)
    (hok : ∀ a w', ok a w' → Serves w handle w') (hfailed : ∀ e w', failed e w' → Serves w handle w') :
    Evolves w (act.exec w).2 :=
  Ensures.exec_snd (h.weaken (fun a w' hw => (hok a w' hw).evolves)
    fun e w' hw => (hfailed e w' hw).evolves)

/-- The depots of these runs use the codec of versioned items and own no directory. -/
def Plain (w : World) : Prop :=
  ∀ name d, w.depots.get? name = some d → d.codecFaults = none ∧ d.scratch = none

/-- What is done with the objects of a depot is done through a handle whose engine is held, or not at
all. -/
theorem onDepot_withObjects_cases (hplain : Plain w) (name : String) {α : Type}
    (act : KeyValue World → DataCodec → Action World DepotError α) :
    (w.onDepot name fun d => withObjects d act) = w ∨
      ∃ handle, w.isEngineHeld handle.engine = true ∧
        (w.onDepot name fun d => withObjects d act) = ((act (keyValue handle) .cbor).exec w).2 := by
  unfold onDepot
  split
  · rename_i d hd
    unfold withObjects
    cases hphase : d.phase with
    | uninitialized => exact .inl (by simp only [hphase, exec_throw])
    | closed => exact .inl (by simp only [hphase, exec_throw])
    | ready handle =>
        have hhandle : d.handle? = some handle := by simp [Depot.handle?, hphase]
        have hcodec : d.codec = .cbor := by simp [Depot.codec, (hplain name d hd).1]
        refine .inr ⟨handle, isEngineHeld_iff.mpr (.inr (.inr ⟨name, d, handle, hd, hhandle, rfl⟩)), ?_⟩
        simp only [hphase, hcodec]
  · exact .inl rfl

end Objects

/-! ## The life of a depot -/

section Life

variable {w : World} {name : String} {d : Depot}

theorem isManagerHeld_of_depot (hd : w.depots.get? name = some d) :
    w.isManagerHeld d.manager = true :=
  isManagerHeld_iff.mpr (.inr ⟨name, d, hd, rfl⟩)

theorem isEngineHeld_of_depot (hd : w.depots.get? name = some d) {handle : Handle}
    (hhandle : d.handle? = some handle) : w.isEngineHeld handle.engine = true :=
  isEngineHeld_iff.mpr (.inr (.inr ⟨name, d, handle, hd, hhandle, rfl⟩))

/-- A depot that was opened holds what its manager has on loan. -/
theorem ensures_start (hd : w.depots.get? name = some d) :
    (start d).Ensures w
      (fun d' w' => Evolves w w' ∧ d'.manager = d.manager ∧ d'.codecFaults = d.codecFaults ∧
        d'.scratch = d.scratch ∧
        ∀ handle, d'.handle? = some handle → w'.isEngineHeld handle.engine = true)
      fun _ w' => Evolves w w' := by
  unfold start
  split
  · exact ensures_pure ⟨.refl w, rfl, rfl, rfl, fun handle h => isEngineHeld_of_depot hd h⟩
  · refine Ensures.bind (P := fun _ w' => Evolves w w') (ensures_modify ?_) ?_
    · refine .of_tame (Tame.modifyManager fun m r _ hr => ?_) (sameNames_modifyManager _ _ _)
      exact hr
    · rintro - w' hw'
      refine Ensures.bind (ensures_mapError ((ensures_lend _ _ _ w').weaken (fun _ _ h => h.lent) ?_)) ?_
      · intro _ w'' hw''
        exact hw'.trans hw''.evolves
      · rintro handle w'' hlent
        -- The depot holds its manager, and the manager holds the engine that it has lent.
        obtain ⟨m, hm, hholds⟩ := hlent.manager
        have hevolves := hw'.trans hlent.evolves
        refine ensures_pure ⟨hevolves, rfl, rfl, rfl, fun handle' hhandle' => ?_⟩
        cases hhandle'
        refine isEngineHeld_of_manager hm ?_ hholds
        rw [hevolves.names.isManagerHeld]
        exact isManagerHeld_of_depot hd

theorem plain_setDepot (hplain : Plain w) (hcodec : d.codecFaults = none)
    (hscratch : d.scratch = none) : Plain (w.setDepot name d) := by
  intro name' d' hd'
  rw [show (w.setDepot name d).depots = w.depots.insert name d from rfl, SortedMap.get?_insert] at hd'
  split at hd'
  · cases hd'
    exact ⟨hcodec, hscratch⟩
  · exact hplain name' d' hd'

theorem SameNames.plain {w' : World} (h : SameNames w w') (hplain : Plain w) : Plain w' := by
  intro name d hd
  rw [h.depots] at hd
  exact hplain name d hd

theorem moves_startNamed (hplain : Plain w) (hd : w.depots.get? name = some d) :
    Moves w ((startNamed name d).exec w).2 ∧ Plain ((startNamed name d).exec w).2 := by
  refine Ensures.exec_snd (P := fun w' => Moves w w' ∧ Plain w') ?_
  refine Ensures.bind ((ensures_start hd).weaken (fun _ _ h => h) ?_) ?_
  · intro _ w' hw'
    exact ⟨hw'.moves, hw'.names.plain hplain⟩
  · rintro d' w' ⟨hw', hmanager, hcodec, hscratch, hhandle⟩
    obtain ⟨hd₁, hd₂⟩ := hplain name d hd
    refine ensures_modify ⟨hw'.moves.trans (Tame.moves (Tame.setDepot ?_ hhandle)), ?_⟩
    · rw [hmanager, hw'.names.isManagerHeld]
      exact isManagerHeld_of_depot hd
    · exact plain_setDepot (hw'.names.plain hplain) (hcodec.trans hd₁) (hscratch.trans hd₂)

/-- Closing a depot is tame. -/
theorem still_stop (d : Depot) (w : World) : Still w ((stop d).run w).2 := by
  unfold stop
  cases hphase : d.phase with
  | uninitialized => exact still_refl w
  | closed => exact still_refl w
  | ready handle => exact still_reclaim d.manager handle w

theorem stop_fst (d : Depot) (w : World) : ((stop d).run w).1 = { d with phase := .closed } := by
  unfold stop
  cases d.phase <;> rfl

theorem moves_stopNamed (hplain : Plain w) (hd : w.depots.get? name = some d) :
    Moves w ((stopNamed name d).run w).2 ∧ Plain ((stopNamed name d).run w).2 := by
  obtain ⟨htame, hnames⟩ := still_stop d w
  obtain ⟨hd₁, hd₂⟩ := hplain name d hd
  have hmanager := isManagerHeld_of_depot hd
  -- A closed depot keeps its name and has no handle any more.
  have hrun : ((stopNamed name d).run w).2 =
      ((stop d).run w).2.setDepot name { d with phase := .closed } := by
    rw [← stop_fst d w]
    rfl
  rw [hrun]
  refine ⟨Tame.moves (htame.trans (Tame.setDepot ?_ fun handle h => ?_)), ?_⟩
  · rw [hnames.isManagerHeld]
    exact hmanager
  · cases h
  · exact plain_setDepot (hnames.plain hplain) hd₁ hd₂

/-- Discarding a depot that owns no directory is tame. -/
theorem still_discardDepot {old : Option Depot} (hold : ∀ d, old = some d → d.scratch = none)
    (w : World) : Still w (discardDepot old w) := by
  unfold discardDepot
  split
  · rename_i d
    rw [hold d rfl]
    exact still_stop d w
  · exact still_refl w

end Life

/-! ## Every call -/

/-- A manager that is new holds nothing. -/
theorem tame_addManager (w : World) (name : String) {m : Manager}
    (hm : ∀ r, m.holds r = false) : Tame w ((w.addManager m).2.nameManager name w.next) := by
  refine .of_engines_eq rfl rfl fun {r} hr => isEngineHeld_iff.mpr ?_
  rcases isEngineHeld_iff.mp hr with hname | ⟨ref, m', hm', hheld, hholds⟩ | hdepot
  · exact .inl hname
  · simp only [nameManager, addManager, SortedMap.get?_insert] at hm'
    split at hm'
    · cases hm'
      rw [hm r] at hholds
      cases hholds
    · rename_i hne
      refine .inr (.inl ⟨ref, m', hm', isManagerHeld_iff.mpr ?_, hholds⟩)
      -- The name may be new, but then it stands for the manager that is new.
      rcases isManagerHeld_iff.mp hheld with ⟨name', hname'⟩ | hdepot
      · simp only [nameManager, addManager, SortedMap.get?_insert] at hname'
        split at hname'
        · cases hname'
          exact absurd rfl hne
        · exact .inl ⟨name', hname'⟩
      · exact .inr hdepot
  · exact .inr (.inr hdepot)

/-- To set switches and counters is tame. -/
theorem tame_setFaults (w : World) (ref : ManagerRef) (faults : Faults) :
    Tame w (w.modifyManager ref fun m =>
      { m with guard := m.guard.map fun guard => { guard with faults } }) := by
  refine Tame.modifyManager fun m r _ hr => holds_wrapped (fun g serial hg hmem => ?_) hr
  -- Switches and counters change, and the wrappers stay.
  obtain ⟨g', hg', rfl⟩ := Option.map_eq_some_iff.mp hg
  exact Manager.holds_iff.mpr (.inr ⟨g', serial, hg', hmem⟩)

/-- A depot that holds nothing may take a name; the one that had the name is closed. -/
theorem moves_nameDepot {w : World} (hplain : Plain w) (name : String) {d : Depot}
    (hmanager : w.isManagerHeld d.manager = true) (hhandle : d.handle? = none)
    (hcodec : d.codecFaults = none) (hscratch : d.scratch = none) :
    Moves w (w.nameDepot name d) ∧ Plain (w.nameDepot name d) := by
  -- The depot that loses the name owns no directory, so that nothing is removed from the disk.
  have hold (old : Depot) (hd : w.depots.get? name = some old) := (hplain name old hd).2
  obtain ⟨htame, hnames⟩ := still_discardDepot hold (w.setDepot name d)
  have hset : Tame w (w.setDepot name d) := by
    refine Tame.setDepot hmanager fun handle h => ?_
    rw [hhandle] at h
    cases h
  exact ⟨Tame.moves (hset.trans htame), hnames.plain (plain_setDepot hplain hcodec hscratch)⟩

theorem moves_dropDepot {w : World} (hplain : Plain w) (name : String) :
    Moves w (w.dropDepot name) ∧ Plain (w.dropDepot name) := by
  have hold (old : Depot) (hd : w.depots.get? name = some old) := (hplain name old hd).2
  obtain ⟨htame, hnames⟩ := still_discardDepot hold { w with depots := w.depots.erase name }
  exact ⟨Tame.moves ((Tame.dropNames id SortedMap.get?_of_get?_erase).trans htame),
    hnames.plain fun name' d hd => hplain name' d (SortedMap.get?_of_get?_erase hd)⟩

theorem moves_of_evolves {w w' : World} (h : Evolves w w') (hplain : Plain w) :
    Moves w w' ∧ Plain w' :=
  ⟨h.moves, h.names.plain hplain⟩

/-- What is done with a depot is a number of moves if it is with every depot of the world. -/
theorem moves_onDepot {w : World} {name : String} {α : Type}
    {act : Depot → Action World DepotError α} (hplain : Plain w)
    (h : ∀ d, w.depots.get? name = some d →
      Moves w ((act d).exec w).2 ∧ Plain ((act d).exec w).2) :
    Moves w (w.onDepot name act) ∧ Plain (w.onDepot name act) := by
  unfold onDepot
  split
  · rename_i d hd
    exact h d hd
  · exact ⟨.refl, hplain⟩

theorem moves_withObjects {w : World} (hw : Consistent w) (hplain : Plain w) (name : String)
    {α : Type} {act : KeyValue World → DataCodec → Action World DepotError α}
    (hact : ∀ handle, Serves w handle w → Evolves w ((act (keyValue handle) .cbor).exec w).2) :
    Moves w (w.onDepot name fun d => withObjects d act) ∧
      Plain (w.onDepot name fun d => withObjects d act) := by
  rcases onDepot_withObjects_cases hplain name act with hsame | ⟨handle, hheld, hdone⟩
  · rw [hsame]
    exact ⟨.refl, hplain⟩
  · rw [hdone]
    exact moves_of_evolves (hact handle ⟨hw, .refl w, hheld⟩) hplain

/-- Every call is a number of moves. -/
theorem moves_step {w : World} (hw : Consistent w) (hplain : Plain w) (call : Call) :
    Moves w (step w call) ∧ Plain (step w call) := by
  have hclosed := Table.closedUnderAccess_represented
  have hsafe (handle : Handle) {w' : World} (h : Serves w handle w') :=
    h.consistent.represented_content handle
  cases call with
  | addManager name app user base networked guarded =>
      refine ⟨Tame.moves (tame_addManager w name fun r => ?_), hplain⟩
      cases guarded <;> rfl
  | dropManager name =>
      exact ⟨Tame.moves (Tame.dropNames SortedMap.get?_of_get?_erase id), hplain⟩
  | register device manager =>
      simp only [step]
      split
      · exact ⟨Tame.moves (.of_engines_eq rfl rfl id), hplain⟩
      · exact ⟨.refl, hplain⟩
  | unregister device => exact ⟨Tame.moves (.of_engines_eq rfl rfl id), hplain⟩
  | setFaults manager faults =>
      simp only [step]
      split
      · rename_i ref href
        exact ⟨Tame.moves (tame_setFaults w ref faults),
          (sameNames_modifyManager w _ _).plain hplain⟩
      · exact ⟨.refl, hplain⟩
  | addDepot name manager id config =>
      simp only [step]
      split
      · rename_i ref href
        exact moves_nameDepot hplain name (isManagerHeld_iff.mpr (.inl ⟨manager, href⟩)) rfl rfl rfl
      · exact ⟨.refl, hplain⟩
  | dropDepot name => exact moves_dropDepot hplain name
  | start name => exact moves_onDepot hplain fun d hd => moves_startNamed hplain hd
  | stop name => exact moves_onDepot hplain fun d hd => moves_stopNamed hplain hd
  | edit name edit =>
      refine moves_withObjects hw hplain name fun handle hs => ?_
      have hact := Access.good_of_act (lawful_keyValue w handle) hclosed (hsafe handle) hs edit
      exact Serves.evolves_of_ensures hact (fun _ _ h => h) fun _ _ h => h
  | get name key =>
      refine moves_withObjects hw hplain name fun handle hs => ?_
      exact Serves.evolves_of_ensures (Access.ensures_get (lawful_keyValue w handle) hs key)
        (fun _ _ h => h.1) fun _ _ h => h.1
  | getSummary name key =>
      refine moves_withObjects hw hplain name fun handle hs => ?_
      exact Serves.evolves_of_ensures (Access.ensures_getSummary (lawful_keyValue w handle) hs key)
        (fun _ _ h => h.1) fun _ _ h => h.1
  | getAll name front =>
      refine moves_withObjects hw hplain name fun handle hs => ?_
      exact Serves.evolves_of_ensures (Access.ensures_getAll (lawful_keyValue w handle) hs front)
        (fun _ _ h => h.1) fun _ _ h => h.1
  | sync name devices =>
      refine moves_onDepot hplain fun d hd => moves_of_evolves ?_ hplain
      unfold syncDepot
      split
      · rename_i handle hphase
        exact evolves_sync hw handle devices .pushOnly
      · exact .refl w

/-! ## Every run -/

theorem moves_run {w : World} (hw : Consistent w) (hplain : Plain w) (calls : List Call) :
    Moves w (run w calls) ∧ Plain (run w calls) := by
  induction calls generalizing w with
  | nil => exact ⟨.refl, hplain⟩
  | cons call calls ih =>
      -- Every call starts where the moves of the ones before have led.
      obtain ⟨hmoves, hplain'⟩ := moves_step hw hplain call
      obtain ⟨hrest, hplain''⟩ := ih (hw.moves hmoves) hplain'
      exact ⟨hmoves.trans hrest, hplain''⟩

theorem plain_of_disk (disk : Disk) : Plain { disk } := by
  intro name d hd
  cases hd

/-- Every run from a disk without logs keeps a world consistent. -/
theorem consistent_run {disk : Disk} (hfresh : ∀ place, disk.content? (Engine.logPlace place) = none)
    (calls : List Call) : Consistent (run { disk } calls) ∧ Plain (run { disk } calls) := by
  have hconsistent := consistent_of_disk hfresh
  obtain ⟨hmoves, hplain⟩ := moves_run hconsistent (plain_of_disk disk) calls
  exact ⟨hconsistent.moves hmoves, hplain⟩

/-- Whatever was called, every engine that was ever opened holds whole objects: each key is a group key
with its metadata, or a member key with its record next to the group key. -/
theorem represented_of_run {disk : Disk}
    (hfresh : ∀ place, disk.content? (Engine.logPlace place) = none) (calls : List Call)
    {r : EngineRef} {e : Engine} (he : (run { disk } calls).engines.get? r = some e) :
    e.table.Represented := by
  have hplain : Plain { disk } := by
    intro name d hd
    cases hd
  have hconsistent := consistent_of_disk hfresh
  exact (hconsistent.moves (moves_run hconsistent hplain calls).1).represented he

/-- A delete of a text that is no group key, an update that fails half-way, and a push to another
device. -/
theorem represented_of_run_pushed :
    let calls : List Call :=
      [.addManager "m" "app" "user" none true true, .register "here" "m",
        .addManager "n" "app" "user" none true false, .register "there" "n",
        .addDepot "s" "m" "drag" { base := "/b" }, .addDepot "t" "n" "drag" { base := "/c" },
        .start "s", .start "t", .edit "t" (.put (DataObject.sample "h" 1)),
        .edit "t" (.delete "udmf:/"), .edit "t" (.put (DataObject.sample "h" 1)),
        .edit "s" (.put (DataObject.sample "g" 2)), .edit "s" (.put (DataObject.sample "h" 2)),
        .setFaults "m" { put := true }, .edit "s" (.update (DataObject.sample "h" 1)),
        .sync "s" ["there"]]
    ∃ e, (run {} calls).engines.get? 4 = some e ∧ e.table.size = 5 ∧ e.table.Represented := by
  intro calls
  have hsize : ((run {} calls).engines.get? 4).map (fun e => e.table.size) = some 5 := by
    decide +kernel
  obtain ⟨e, he, hsize'⟩ := Option.map_eq_some_iff.mp hsize
  have hfresh (place : List String) : ({} : Disk).content? (Engine.logPlace place) = none := by
    simp [Disk.content?, Disk.node?, Engine.logPlace_ne_nil]
  exact ⟨e, he, hsize', represented_of_run hfresh calls he⟩

end ObjectStore.World
