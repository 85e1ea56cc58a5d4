import ObjectStore.Proofs.World.Custody

/-!
# Everything that can happen to a world

Beside the calls to managers, depots and the network there is more that callers can do: engines are
opened by themselves, lent and returned under names of their own, written to and closed past all depots,
ready-made depots come and go with their directories, and files are changed under the engines that have
them open. Whatever happens, and in whatever order, a world stays accounted for.

Main statements: `accounted_happen` and `accounted_future`.
-/

namespace ObjectStore.World

open ObjectStore.Action
open Engine (logPlace logPlace_ne_nil)

/-! ## Events -/

/-- The path of a directory that goes with a depot; it is not the place of a log. -/
abbrev Scratch :=
  { path : String // ∀ directory, Path.names path ≠ logPlace directory }

/-- Whatever callers do. Managers, handles and depots are given by their names. -/
inductive Event where
  | call (call : Call)
  /-- Set the directory above all stores of a manager. -/
  | setBase (manager base : String)
  /-- Name what a manager lends. -/
  | lend (handle manager id : String) (options : Options)
  /-- Name one loan more of the store of a depot. -/
  | lendStore (handle depot : String)
  | reclaim (manager handle : String)
  /-- Name a new engine in memory that belongs to no manager. -/
  | openMemory (handle id : String) (options : Options) (networked : Bool)
  /-- Name an engine on a directory that belongs to no manager. -/
  | openDirectory (handle path id : String) (options : Options) (networked : Bool)
  | dropHandle (handle : String)
  | put (handle : String) (entries : List Entry)
  | delete (handle : String) (keys : List Bytes)
  | scan (handle : String) (front : Bytes)
  | close (handle : String)
  | sync (handle : String) (devices : List String) (mode : SyncMode)
  /-- Set the switches of a depot's codec. -/
  | setCodecFaults (depot : String) (faults : CodecFaults)
  | addReadyMade (manager depot : String) (kind : ReadyMade) (scratch : Scratch)
  | writeFile (path : String) (content : Bytes) (append : Bool)
  | makeDirectories (path : String)
  /-- Change the bits of a mask in one byte of a file. -/
  | flip (path : String) (position : Nat) (mask : UInt8)
  /-- Cut bytes off the end of a file. -/
  | dropEnd (path : String) (count : Nat)

/-- Does something with the handle of a name, if there is one. -/
def onHandle {α : Type} (w : World) (name : String) (act : Handle → Action World StorageError α) :
    World :=
  match w.handleNames.get? name with
  | some handle => ((act handle).exec w).2
  | none => w

/-- Names what a manager lends, if it lends anything. -/
def lendNamed (handle : String) (ref : ManagerRef) (id : String) (options : Options) :
    Action World StorageError Unit := do
  let lent ← lend ref id options
  modify fun w => w.nameHandle handle lent

/-- Names an engine that was opened on a directory. -/
def openNamed (handle path id : String) (options : Options) (networked : Bool) :
    Action World StorageError Unit := do
  let (opened, w) := World.openDirectory path id options networked (← get)
  set w
  let engine ← answer opened
  modify fun w => w.nameHandle handle (.direct engine)

/-- What an event leaves behind. -/
def happen (w : World) : Event → World
  | .call call => step w call
  | .setBase manager base =>
    match w.managerNames.get? manager with
    | some ref => w.modifyManager ref fun m => { m with base := some base }
    | none => w
  | .lend handle manager id options =>
    match w.managerNames.get? manager with
    | some ref => ((lendNamed handle ref id options).exec w).2
    | none => w
  | .lendStore handle depot =>
    match w.depots.get? depot with
    | some d =>
      match w.managerNamedBy d with
      | some (ref, _) => ((lendNamed handle ref d.id d.config.options).exec w).2
      | none => w
    | none => w
  | .reclaim manager handle =>
    match w.managerNames.get? manager with
    | some ref => w.onHandle handle (World.reclaim ref)
    | none => w
  | .openMemory handle id options networked =>
    (w.addEngine { id, options, networked }).2.nameHandle handle (.direct w.next)
  | .openDirectory handle path id options networked =>
    ((openNamed handle path id options networked).exec w).2
  | .dropHandle handle => w.dropHandle handle
  | .put handle entries => w.onHandle handle fun handle => World.put handle entries
  | .delete handle keys => w.onHandle handle fun handle => World.delete handle keys
  | .scan handle front => w.onHandle handle fun handle => World.scan handle front
  | .close handle => w.onHandle handle fun handle => modify fun w => closeEngine w handle.engine
  | .sync handle devices mode => w.onHandle handle fun handle => World.sync handle devices mode
  | .setCodecFaults depot faults =>
    match w.depots.get? depot with
    | some d => w.setDepot depot { d with codecFaults := some faults }
    | none => w
  | .addReadyMade manager depot kind scratch => w.addReadyMade manager depot kind scratch
  | .writeFile path content append => { w with disk := (w.disk.write path content append).2 }
  | .makeDirectories path => { w with disk := (w.disk.makeDirectories path).2 }
  | .flip path position mask => { w with disk := (w.disk.flip? path position mask).getD w.disk }
  | .dropEnd path count => { w with disk := (w.disk.dropEnd? path count).getD w.disk }

/-- The world after all events. -/
def future (w : World) (events : List Event) : World :=
  events.foldl happen w

/-- What is done with a named handle keeps what it keeps for every handle. -/
theorem of_onHandle {P : World → Prop} {w : World} (hw : P w) {name : String} {α : Type}
    {act : Handle → Action World StorageError α}
    (hact : ∀ handle, w.handleNames.get? name = some handle → P ((act handle).exec w).2) :
    P (w.onHandle name act) := by
  unfold onHandle
  split
  · rename_i handle hname
    exact hact handle hname
  · exact hw

/-! ## Steps that leave the books alone -/

theorem steady_addEngine {w : World} (hfresh : Fresh w) (e : Engine) : Steady w (w.addEngine e).2 := by
  have hget (r : EngineRef) :
      (w.addEngine e).2.engines.get? r = if r = w.next then some e else w.engines.get? r :=
    SortedMap.get?_insert w.engines w.next e r
  refine ⟨fun _ r hr => ?_, fun _ _ => rfl, fun {r e'} he => ?_⟩
  · have hr' : w.next + 1 ≤ r := hr
    have hne : r ≠ w.next := by omega
    obtain ⟨hengine, hmanager⟩ := hfresh r (by omega)
    exact ⟨by rw [hget, if_neg hne, hengine], hmanager⟩
  · have hne : r ≠ w.next := by
      rintro rfl
      rw [(hfresh w.next (Nat.le_refl _)).1] at he
      cases he
    exact ⟨e', by rw [hget, if_neg hne, he], rfl, rfl, rfl⟩

/-- Engines may lose their directories. -/
theorem steady_removeDirectory (w : World) (removed : List String) :
    Steady w (w.removeDirectory removed) := by
  have hget (r : EngineRef) : (w.removeDirectory removed).engines.get? r =
      (w.engines.get? r).map fun e => e.leave removed := SortedMap.get?_map _ _ r
  have hleave (e : Engine) : (e.leave removed).id = e.id ∧ (e.leave removed).options = e.options ∧
      (e.leave removed).isClosed = e.isClosed := by
    unfold Engine.leave
    split
    · exact ⟨rfl, rfl, rfl⟩
    · split <;> exact ⟨rfl, rfl, rfl⟩
  refine ⟨fun hfresh r hr => ?_, fun _ _ => rfl, fun {r e} he => ?_⟩
  · obtain ⟨hengine, hmanager⟩ := hfresh r hr
    exact ⟨by rw [hget, hengine]; rfl, hmanager⟩
  · exact ⟨e.leave removed, by rw [hget, he]; rfl, hleave e⟩

namespace Accounted

variable {w w' : World}

/-! ## Names -/

/-- Names may stand for whatever is there. -/
theorem rename (h : Accounted w) {devices managerNames : SortedMap String ManagerRef}
    {handleNames : SortedMap String Handle} {depots : SortedMap String Depot}
    (hhandles : ∀ {name handle}, handleNames.get? name = some handle → w.Has handle.engine)
    (hdepots : ∀ {name d}, depots.get? name = some d → Placed w d) :
    Accounted { w with devices, managerNames, handleNames, depots } where
  booked := h.booked.steady (.of_eq rfl rfl rfl)
  handles := hhandles
  wrappers := h.wrappers
  depots hd := (hdepots hd).mono fun _ hr => hr
  logged := h.logged

theorem nameHandle (h : Accounted w) (name : String) {handle : Handle} (hhas : w.Has handle.engine) :
    Accounted (w.nameHandle name handle) := by
  refine h.rename (fun {name' handle'} hname => ?_) h.depots
  rw [SortedMap.get?_insert] at hname
  split at hname
  · cases hname
    exact hhas
  · exact h.handles hname

theorem setDepot (h : Accounted w) (name : String) {d : Depot} (hd : Placed w d) :
    Accounted (w.setDepot name d) := by
  refine h.rename h.handles fun {name' d'} hname => ?_
  rw [SortedMap.get?_insert] at hname
  split at hname
  · cases hname
    exact hd
  · exact h.depots hname

/-! ## New managers and engines -/

theorem nameManager (h : Accounted w) (name : String) (ref : ManagerRef) :
    Accounted (w.nameManager name ref) :=
  h.rename h.handles h.depots

/-- A manager may come that has lent nothing. -/
theorem addManager (h : Accounted w) {m : Manager} (hloans : m.loans = ∅)
    (hguard : ∀ guard, m.guard = some guard → guard.wrappers = []) :
    Accounted (w.addManager m).2 := by
  have hnamed := steady_addManager h.booked.fresh hloans ""
  have hsteady : Steady w (w.addManager m).2 := hnamed.trans (.of_eq rfl rfl rfl)
  refine h.of_names (h.booked.steady hsteady) ⟨rfl, rfl, rfl⟩ hsteady.has (fun hmem => .inl ?_) h.logged
  rename_i ref serial r
  have hget : (w.addManager m).2.managers.get? ref =
      if ref = w.next then some m else w.managers.get? ref :=
    SortedMap.get?_insert w.managers w.next m ref
  unfold World.wrappers at hmem
  rw [hget] at hmem
  split at hmem
  · cases hm : m.guard with
    | none => simp [hm] at hmem
    | some guard => simp [hm, hguard guard hm] at hmem
  · exact hmem

/-- An engine may come that nobody has. -/
theorem addEngine (h : Accounted w) {e : Engine}
    (hlogged : ∀ place, e.directory? = some place → w.disk.content? (logPlace place) ≠ none) :
    Accounted (w.addEngine e).2 ∧ (w.addEngine e).2.Has w.next := by
  have hget (r : EngineRef) :
      (w.addEngine e).2.engines.get? r = if r = w.next then some e else w.engines.get? r :=
    SortedMap.get?_insert w.engines w.next e r
  have hsteady := steady_addEngine h.booked.fresh e
  refine ⟨h.of_names (h.booked.steady hsteady) ⟨rfl, rfl, rfl⟩ hsteady.has .inl ?_, e, ?_⟩
  · intro r e' place he' hplace
    rw [hget] at he'
    split at he'
    · cases he'
      exact hlogged place hplace
    · exact h.logged he' hplace
  · rw [hget, if_pos rfl]

/-! ## Directories that go -/

theorem directory?_of_leave {e : Engine} {removed place : List String}
    (h : (e.leave removed).directory? = some place) :
    e.directory? = some place ∧ ¬ removed <+: place := by
  unfold Engine.leave at h
  split at h
  · rename_i hbacking
    simp [Engine.directory?, hbacking] at h
  · rename_i place' length hbacking
    split at h
    · simp [Engine.directory?] at h
    · rename_i hprefix
      have hplace : e.directory? = some place' := by simp [Engine.directory?, hbacking]
      rw [hplace] at h ⊢
      cases h
      exact ⟨rfl, hprefix⟩

/-- The engines that have their logs below a directory lose them with it. -/
theorem removeDirectory (h : Accounted w) {removed : List String}
    (hremoved : ∀ directory, removed ≠ logPlace directory) :
    Accounted (w.removeDirectory removed) := by
  have hget (r : EngineRef) : (w.removeDirectory removed).engines.get? r =
      (w.engines.get? r).map fun e => e.leave removed := SortedMap.get?_map _ _ r
  have hsteady := steady_removeDirectory w removed
  refine h.of_names (h.booked.steady hsteady) ⟨rfl, rfl, rfl⟩ hsteady.has .inl ?_
  intro r e' place he' hplace
  rw [hget] at he'
  obtain ⟨e, he, rfl⟩ := Option.map_eq_some_iff.mp he'
  obtain ⟨hbefore, hprefix⟩ := directory?_of_leave hplace
  have hlog := h.logged he hbefore
  -- The log is not below the directory, and it is not the directory either.
  have hstays : removed.isPrefixOf (logPlace place) = false := by
    rw [Bool.eq_false_iff, ne_eq, List.isPrefixOf_iff_prefix, logPlace, List.prefix_concat_iff]
    exact not_or.mpr ⟨hremoved place, hprefix⟩
  have hnode : (w.disk.remove removed).node? (logPlace place) = w.disk.node? (logPlace place) := by
    simp only [Disk.node?, Disk.remove, logPlace_ne_nil, if_false, SortedMap.get?_filter, hstays,
      Bool.not_false]
    cases w.disk.nodes.get? (logPlace place) <;> rfl
  unfold Disk.content? at hlog ⊢
  rw [show (w.removeDirectory removed).disk = w.disk.remove removed from rfl, hnode]
  exact hlog

/-! ## The life of a depot -/

theorem stop (h : Accounted w) (d : Depot) : Accounted ((World.stop d).run w).2 := by
  unfold World.stop
  cases d.phase with
  | uninitialized => exact h
  | closed => exact h
  | ready handle => exact h.reclaim d.manager handle

theorem discardDepot (h : Accounted w) {old : Option Depot}
    (hold : ∀ d, old = some d → Placed w d) : Accounted (World.discardDepot old w) := by
  unfold World.discardDepot
  split
  · rename_i d
    have hstopped := h.stop d
    simp only
    split
    · rename_i place hplace
      exact hstopped.removeDirectory ((hold d rfl).scratch place hplace)
    · exact hstopped
  · exact h

/-- The depot that has lost its name is closed, and its directory goes. -/
theorem nameDepot (h : Accounted w) (name : String) {d : Depot} (hd : Placed w d) :
    Accounted (w.nameDepot name d) := by
  refine (h.setDepot name hd).discardDepot fun old hname => ?_
  exact (h.depots hname).mono fun _ hr => hr

theorem dropDepot (h : Accounted w) (name : String) : Accounted (w.dropDepot name) := by
  have hdropped : Accounted { w with depots := w.depots.erase name } :=
    h.rename h.handles fun hname => h.depots (SortedMap.get?_of_get?_erase hname)
  refine hdropped.discardDepot fun old hname => ?_
  exact (h.depots hname).mono fun _ hr => hr

end Accounted

section Life

variable {w : World} {name : String} {d : Depot}

/-- What a depot gets from its manager is there. -/
theorem ensures_start_accounted (h : Accounted w) (hd : Placed w d) :
    (start d).Ensures w (fun d' w' => Accounted w' ∧ Placed w' d') fun _ w' => Accounted w' := by
  unfold start
  split
  · exact ensures_pure ⟨h, hd⟩
  · refine Ensures.bind (P := fun _ w' => Accounted w')
      (ensures_modify (h.modifyManager (fun _ => rfl) fun m guard _ hguard =>
        ⟨guard, hguard, fun _ hmem => hmem⟩)) ?_
    intro _ w₁ h₁
    refine Ensures.bind (ensures_mapError (ensures_lend_accounted h₁ d.manager d.id d.config.options)) ?_
    intro handle w₂ h₂
    obtain ⟨haccounted, hhas⟩ := h₂
    refine ensures_pure ⟨haccounted, fun handle' hhandle' => ?_, hd.scratch⟩
    cases hhandle'
    exact hhas

theorem accounted_startNamed (h : Accounted w) (hd : Placed w d) :
    Accounted ((startNamed name d).exec w).2 := by
  refine Ensures.exec_snd (P := Accounted) ?_
  refine Ensures.bind (ensures_start_accounted h hd) ?_
  intro d' w' h'
  exact ensures_modify (h'.1.setDepot name h'.2)

theorem accounted_stopNamed (h : Accounted w) (hd : Placed w d) :
    Accounted ((stopNamed name d).run w).2 := by
  have hrun : ((stopNamed name d).run w).2 =
      ((stop d).run w).2.setDepot name { d with phase := .closed } := by
    rw [← stop_fst d w]
    rfl
  rw [hrun]
  refine (h.stop d).setDepot name ⟨fun handle hhandle => ?_, hd.scratch⟩
  cases hhandle

/-- A depot that is opened before it gets its name is placed also where it cannot be opened. -/
theorem accounted_nameStarted (h : Accounted w) (hnone : d.handle? = none)
    (hscratch : ∀ place, d.scratch = some place → ∀ directory, place ≠ logPlace directory)
    (managerName depotName : String) (manager : ManagerRef) :
    Accounted ((((start d).exec w).2.nameManager managerName manager).nameDepot depotName
      (((start d).exec w).1.toOption.getD d)) := by
  have hplaced (w' : World) : Placed w' d := by
    refine ⟨fun handle hhandle => ?_, hscratch⟩
    rw [hnone] at hhandle
    cases hhandle
  have hstart := ensures_start_accounted h (hplaced w)
  unfold Ensures at hstart
  rcases hexec : (start d).exec w with ⟨err | d', w'⟩
  · rw [hexec] at hstart
    exact (hstart.nameManager managerName manager).nameDepot depotName (hplaced _)
  · rw [hexec] at hstart
    exact (hstart.1.nameManager managerName manager).nameDepot depotName (hstart.2.mono fun _ hr => hr)

/-- A ready-made depot comes with a manager of its own. -/
theorem accounted_addReadyMade (h : Accounted w) (managerName depotName : String) (kind : ReadyMade)
    (scratch : Scratch) : Accounted (w.addReadyMade managerName depotName kind scratch) := by
  unfold addReadyMade
  simp only
  refine accounted_nameStarted (h.addManager rfl fun guard hguard => ?_) rfl (fun place hplace => ?_) _ _ _
  · cases hguard
    rfl
  · simp only at hplace
    split at hplace
    · cases hplace
      exact scratch.2
    · cases hplace

end Life

/-! ## Every event -/

/-- What opens a directory by itself leaves an engine with a name, or nothing but what it did to the
disk. -/
theorem exec_openNamed (handle path id : String) (options : Options) (networked : Bool) (w : World) :
    (openNamed handle path id options networked).exec w =
      match Engine.openDirectory path id options networked w.isDirectoryHeld w.disk with
      | (.error err, disk) => (.error err, { w with disk })
      | (.ok e, disk) =>
        (.ok (), ({ w with disk }.addEngine e).2.nameHandle handle (.direct w.next)) := by
  unfold openNamed World.openDirectory
  rcases hopen : Engine.openDirectory path id options networked w.isDirectoryHeld w.disk with
    ⟨err | e, disk⟩
  · simp only [exec_bind, exec_get, hopen, exec_set, exec_answer]
  · simp only [exec_bind, exec_get, hopen, exec_set, exec_answer, exec_modify]
    rfl

section Events

variable {w : World}

/-- Every call keeps the accounts. -/
theorem accounted_step (h : Accounted w) (call : Call) : Accounted (step w call) := by
  cases call with
  | addManager name app user base networked guarded =>
      have hadded : Accounted (w.addManager
          { app, user, base, networked, guard := if guarded then some {} else none }).2 := by
        refine h.addManager rfl fun guard hguard => ?_
        cases guarded <;> cases hguard
        rfl
      exact hadded.nameManager name w.next
  | dropManager name => exact h.rename h.handles h.depots
  | register device manager =>
      simp only [step]
      split
      · exact h.rename h.handles h.depots
      · exact h
  | unregister device => exact h.rename h.handles h.depots
  | setFaults manager faults =>
      simp only [step]
      split
      · refine h.modifyManager (fun _ => rfl) fun m guard _ hguard => ?_
        obtain ⟨guard', hguard', rfl⟩ := Option.map_eq_some_iff.mp hguard
        exact ⟨guard', hguard', fun _ hmem => hmem⟩
      · exact h
  | addDepot name manager id config =>
      simp only [step]
      split
      · refine h.nameDepot name ⟨fun handle hhandle => ?_, fun place hplace => ?_⟩
        · cases hhandle
        · cases hplace
      · exact h
  | dropDepot name => exact h.dropDepot name
  | start name =>
      simp only [step, onDepot]
      split
      · rename_i d hd
        exact accounted_startNamed h (h.depots hd)
      · exact h
  | stop name =>
      simp only [step, onDepot]
      split
      · rename_i d hd
        exact accounted_stopNamed h (h.depots hd)
      · exact h
  | edit name edit => exact keptByCalls_accounted.edit h name edit
  | get name key => exact keptByCalls_accounted.get h name key
  | getSummary name key => exact keptByCalls_accounted.getSummary h name key
  | getAll name front => exact keptByCalls_accounted.getAll h name front
  | sync name devices =>
      simp only [step, onDepot]
      split
      · rename_i d hd
        unfold syncDepot
        split
        · exact accounted_sync h _ devices .pushOnly
        · exact h
      · exact h

theorem accounted_lendNamed (h : Accounted w) (handle : String) (ref : ManagerRef) (id : String)
    (options : Options) : Accounted ((lendNamed handle ref id options).exec w).2 := by
  refine Ensures.exec_snd (P := Accounted) ?_
  refine Ensures.bind (ensures_lend_accounted h ref id options) ?_
  intro lent w' h'
  exact ensures_modify (h'.1.nameHandle handle h'.2)

theorem accounted_openNamed (h : Accounted w) (handle path id : String) (options : Options)
    (networked : Bool) : Accounted ((openNamed handle path id options networked).exec w).2 := by
  have hgrows := Engine.grows_openDirectory path id options networked w.isDirectoryHeld w.disk
  rw [exec_openNamed]
  rcases hopen : Engine.openDirectory path id options networked w.isDirectoryHeld w.disk with
    ⟨err | e, disk⟩
  · rw [hopen] at hgrows
    exact h.disk hgrows.files
  · rw [hopen] at hgrows
    have hadded := (h.disk hgrows.files).addEngine (e := e) fun place hplace => by
      obtain ⟨batches, bs, hpersists⟩ := (Engine.opened_of_openDirectory hopen).persists
      rw [hpersists.directory?] at hplace
      cases hplace
      rw [hpersists.log]
      simp
    have hhas : ({ w with disk }.addEngine e).2.Has (Handle.direct w.next).engine := hadded.2
    exact hadded.1.nameHandle handle hhas

/-- Whatever happens, a world stays accounted for. -/
theorem accounted_happen (h : Accounted w) (event : Event) : Accounted (happen w event) := by
  cases event with
  | call call => exact accounted_step h call
  | setBase manager base =>
      simp only [happen]
      split
      · exact h.modifyManager (fun _ => rfl) fun m guard _ hguard => ⟨guard, hguard, fun _ hmem => hmem⟩
      · exact h
  | lend handle manager id options =>
      simp only [happen]
      split
      · exact accounted_lendNamed h handle _ id options
      · exact h
  | lendStore handle depot =>
      simp only [happen]
      split
      · split
        · exact accounted_lendNamed h handle _ _ _
        · exact h
      · exact h
  | reclaim manager handle =>
      simp only [happen]
      split
      · exact of_onHandle h fun handle _ => h.reclaim _ handle
      · exact h
  | openMemory handle id options networked =>
      have hadded := h.addEngine (e := { id, options, networked }) fun place hplace => by cases hplace
      have hhas : (w.addEngine { id, options, networked }).2.Has (Handle.direct w.next).engine :=
        hadded.2
      exact hadded.1.nameHandle handle hhas
  | openDirectory handle path id options networked =>
      exact accounted_openNamed h handle path id options networked
  | dropHandle handle =>
      exact h.rename (fun hname => h.handles (SortedMap.get?_of_get?_erase hname)) h.depots
  | put handle entries =>
      exact of_onHandle h fun handle _ => keptByCalls_accounted.put h handle entries
  | delete handle keys =>
      exact of_onHandle h fun handle _ => keptByCalls_accounted.delete h handle keys
  | scan handle front =>
      exact of_onHandle h fun handle _ => keptByCalls_accounted.scan h handle front
  | close handle => exact of_onHandle h fun handle _ => h.closeEngine handle.engine
  | sync handle devices mode =>
      exact of_onHandle h fun handle _ => accounted_sync h handle devices mode
  | setCodecFaults depot faults =>
      simp only [happen]
      split
      · rename_i d hd
        exact h.setDepot depot ⟨(h.depots hd).handle, (h.depots hd).scratch⟩
      · exact h
  | addReadyMade manager depot kind scratch => exact accounted_addReadyMade h manager depot kind scratch
  | writeFile path content append => exact h.disk (Disk.grows_write w.disk path content append).files
  | makeDirectories path =>
      exact h.disk (Disk.extends_makeDirectories path w.disk).1.grows.files
  | flip path position mask =>
      refine h.disk fun {p} hnone => ?_
      cases hflip : w.disk.flip? path position mask with
      | none => simpa [hflip] using hnone
      | some disk => exact (Disk.grows_edit? hflip).files (by simpa [hflip] using hnone)
  | dropEnd path count =>
      refine h.disk fun {p} hnone => ?_
      cases hdrop : w.disk.dropEnd? path count with
      | none => simpa [hdrop] using hnone
      | some disk => exact (Disk.grows_edit? hdrop).files (by simpa [hdrop] using hnone)

/-! ## Every future -/

/-- A disk and nothing else, whatever there is on it. -/
theorem accounted_of_disk (disk : Disk) : Accounted { disk } where
  booked :=
    { fresh := fun _ _ => ⟨rfl, rfl⟩
      lent := fun hloan => by cases hloan
      apart := fun hloan => by cases hloan }
  handles hname := by cases hname
  wrappers hmem := by cases hmem
  depots hd := by cases hd
  logged he := by cases he

/-- Whatever has happened on whatever disk, the world is accounted for. -/
theorem accounted_future (disk : Disk) (events : List Event) : Accounted (future { disk } events) := by
  unfold future
  induction events using List.reverseRecOn with
  | nil => exact accounted_of_disk disk
  | append_singleton events event ih =>
      rw [List.foldl_append]
      exact accounted_happen ih event

end Events

end ObjectStore.World
