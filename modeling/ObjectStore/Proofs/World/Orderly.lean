import ObjectStore.Proofs.World.Matching

/-!
# Orderly worlds

Whatever happens to a world, it stays accounted for and its wrappers match its loans: pushes lend and
return wrappers of their own, depots come and go, engines are closed past their managers, and directories
disappear under them.

Main statements: `orderly_happen` and `orderly_future`.
-/

namespace ObjectStore.World

open ObjectStore.Action

/-! ## Orderly worlds -/

/-- Nothing goes astray, and the wrappers match the loans. -/
structure Orderly (w : World) : Prop where
  accounted : Accounted w
  matched : Matched w

section Orderly

variable {w w' : World} {ref : ManagerRef} {id : String} {options : Options}

/-- Names and the disk do not matter for the wrappers. -/
theorem Orderly.of_eq (h : Orderly w) (haccounted : Accounted w') (hnext : w'.next = w.next)
    (hengines : w'.engines = w.engines) (hmanagers : w'.managers = w.managers) : Orderly w' :=
  ⟨haccounted, h.matched.of_eq h.accounted.booked hnext hengines hmanagers⟩

theorem keptByCalls_orderly : KeptByCalls Orderly where
  setsFaults h hfaults :=
    ⟨h.accounted.setsFaults hfaults, h.matched.setsFaults h.accounted.booked hfaults⟩
  written h he hwrite := ⟨h.accounted.write he hwrite, h.matched.write h.accounted.booked he hwrite⟩

theorem Orderly.reclaim (h : Orderly w) (ref : ManagerRef) (handle : Handle) :
    Orderly ((World.reclaim ref handle).exec w).2 :=
  ⟨h.accounted.reclaim ref handle, h.matched.reclaim h.accounted.booked ref handle⟩

theorem ensures_lend_orderly (h : Orderly w) (ref : ManagerRef) (id : String) (options : Options) :
    (lend ref id options).Ensures w (fun handle w' => Orderly w' ∧ w'.Has handle.engine)
      fun _ w' => Orderly w' := by
  have hbooked := h.accounted.booked
  refine (ensures_lend_or_denies ref id options w).weaken ?_ ?_
  · rintro handle w' ⟨hlends, hpermits⟩
    obtain ⟨haccounted, hhas⟩ := h.accounted.lends hlends
    exact ⟨⟨haccounted, h.matched.lends hbooked hlends hpermits⟩, hhas⟩
  · intro _ w' hdenies
    exact ⟨h.accounted.refused hdenies.refused, h.matched.refused hbooked hdenies.refused⟩

theorem orderly_lend (h : Orderly w) (ref : ManagerRef) (id : String) (options : Options) :
    Orderly ((lend ref id options).exec w).2 :=
  Ensures.exec_snd ((ensures_lend_orderly h ref id options).weaken (fun _ _ h => h.1) fun _ _ h => h)

/-! ## Pushes -/

theorem orderly_deliver (h : Orderly w) (id : String) (options : Options) (es : List Entry)
    (ref : ManagerRef) : Orderly ((deliver id options es ref).exec w).2 := by
  have hlend := ensures_lend_orderly h ref id options
  refine Ensures.exec_snd (Ensures.bind hlend ?_)
  intro handle w₁ h₁
  refine Ensures.bind (P := fun _ w₂ => Orderly w₂)
    (ensures_always (keptByCalls_orderly.put h₁.1 handle es)) ?_
  intro written w₂ h₂
  refine Ensures.bind (P := fun _ w₃ => Orderly w₃) (ensures_always (h₂.reclaim ref handle)) ?_
  intro released w₃ h₃
  refine Ensures.bind (P := fun _ w₄ => Orderly w₄) (ensures_answer (fun _ _ => h₃) fun _ _ => h₃) ?_
  intro _ w₄ h₄
  exact ensures_answer (fun _ _ => h₄) fun _ _ => h₄

theorem orderly_pushAll (h : Orderly w) (networked : Bool) (id : String) (options : Options)
    (es : List Entry) (devices : List String) (outcome : SyncOutcome) :
    Orderly ((pushAll networked id options es devices outcome).run w).2 := by
  induction devices generalizing w outcome with
  | nil => exact h
  | cons device devices ih =>
      rw [pushAll, StateT.run_bind]
      refine ih ?_ _
      rw [run_pushTo]
      split
      · exact h
      · exact orderly_deliver h id options es _

theorem orderly_sync (h : Orderly w) (handle : Handle) (devices : List String) (mode : SyncMode) :
    Orderly ((sync handle devices mode).exec w).2 := by
  have hcounted := keptByCalls_orderly.setsFaults h (setsFaults_counted handle .sync w)
  rcases exec_sync_cases handle devices mode w with
    ⟨err, -, hexec⟩ | ⟨-, e, outcome, w', -, hpush, hexec⟩
  · rwa [hexec]
  · have hpushed := orderly_pushAll hcounted e.networked e.id e.options (e.table.scan []) devices ∅
    rw [hpush] at hpushed
    rwa [hexec]

/-! ## Depots -/

theorem Orderly.stop (h : Orderly w) (d : Depot) : Orderly ((World.stop d).run w).2 := by
  unfold World.stop
  cases d.phase with
  | uninitialized => exact h
  | closed => exact h
  | ready handle => exact h.reclaim d.manager handle

theorem Orderly.discardDepot (h : Orderly w) {old : Option Depot}
    (hold : ∀ d, old = some d → Placed w d) : Orderly (World.discardDepot old w) := by
  refine ⟨h.accounted.discardDepot hold, ?_⟩
  unfold World.discardDepot
  split
  · rename_i d
    have hstopped := h.stop d
    simp only
    split
    · exact hstopped.matched.removeDirectory hstopped.accounted.booked _
    · exact hstopped.matched
  · exact h.matched

theorem Orderly.nameDepot (h : Orderly w) (name : String) {d : Depot} (hd : Placed w d) :
    Orderly (w.nameDepot name d) := by
  have hset : Orderly (w.setDepot name d) := h.of_eq (h.accounted.setDepot name hd) rfl rfl rfl
  refine hset.discardDepot fun old hname => ?_
  exact (h.accounted.depots hname).mono fun _ hr => hr

theorem Orderly.dropDepot (h : Orderly w) (name : String) : Orderly (w.dropDepot name) := by
  have hdropped : Orderly { w with depots := w.depots.erase name } :=
    h.of_eq (h.accounted.rename h.accounted.handles fun hname =>
      h.accounted.depots (SortedMap.get?_of_get?_erase hname)) rfl rfl rfl
  refine hdropped.discardDepot fun old hname => ?_
  exact (h.accounted.depots hname).mono fun _ hr => hr

variable {d : Depot} {name : String}

theorem ensures_start_orderly (h : Orderly w) (hd : Placed w d) :
    (start d).Ensures w (fun d' w' => Orderly w' ∧ Placed w' d') fun _ w' => Orderly w' := by
  unfold start
  split
  · exact ensures_pure ⟨h, hd⟩
  · have hbased : Orderly (w.modifyManager d.manager fun m => { m with base := some d.config.base }) :=
      ⟨h.accounted.modifyManager (fun _ => rfl) fun m guard _ hguard =>
        ⟨guard, hguard, fun _ hmem => hmem⟩,
        h.matched.modifyManager h.accounted.booked (fun _ => rfl) fun _ _ => rfl⟩
    refine Ensures.bind (P := fun _ w' => Orderly w') (ensures_modify hbased) ?_
    intro _ w₁ h₁
    refine Ensures.bind (ensures_mapError (ensures_lend_orderly h₁ d.manager d.id d.config.options)) ?_
    intro handle w₂ h₂
    obtain ⟨horderly, hhas⟩ := h₂
    refine ensures_pure ⟨horderly, fun handle' hhandle' => ?_, hd.scratch⟩
    cases hhandle'
    exact hhas

theorem orderly_start (h : Orderly w) (hd : Placed w d) : Orderly ((start d).exec w).2 :=
  Ensures.exec_snd ((ensures_start_orderly h hd).weaken (fun _ _ h => h.1) fun _ _ h => h)

theorem orderly_startNamed (h : Orderly w) (hd : Placed w d) :
    Orderly ((startNamed name d).exec w).2 := by
  refine Ensures.exec_snd (P := Orderly) ?_
  refine Ensures.bind (ensures_start_orderly h hd) ?_
  intro d' w' h'
  exact ensures_modify (h'.1.of_eq (h'.1.accounted.setDepot name h'.2) rfl rfl rfl)

theorem orderly_stopNamed (h : Orderly w) (hd : Placed w d) :
    Orderly ((stopNamed name d).run w).2 :=
  (h.stop d).of_eq (accounted_stopNamed h.accounted hd) rfl rfl rfl

/-- A depot that is opened before it gets its name is placed also where it cannot be opened. -/
theorem orderly_nameStarted (h : Orderly w) (hd : ∀ w', Placed w' d) (managerName depotName : String)
    (manager : ManagerRef) :
    Orderly ((((start d).exec w).2.nameManager managerName manager).nameDepot depotName
      (((start d).exec w).1.toOption.getD d)) := by
  have hstart := ensures_start_orderly h (hd w)
  have hnamed {w' : World} (h' : Orderly w') : Orderly (w'.nameManager managerName manager) :=
    h'.of_eq (h'.accounted.nameManager managerName manager) rfl rfl rfl
  unfold Ensures at hstart
  rcases hexec : (start d).exec w with ⟨err | d', w'⟩
  · rw [hexec] at hstart
    exact (hnamed hstart).nameDepot depotName (hd _)
  · rw [hexec] at hstart
    exact (hnamed hstart.1).nameDepot depotName (hstart.2.mono fun _ hr => hr)

/-! ## Ready-made depots -/

/-- The manager of a ready-made depot. -/
def readyMadeManager : Manager :=
  let config : Config := {}
  { app := config.app, user := config.user, guard := some {} }

/-- A ready-made depot before it is opened. -/
def readyMadeDepot (manager : ManagerRef) (managerName : String) (kind : ReadyMade) (scratch : String) :
    Depot :=
  let config : Config := {}
  { id := "drag"
    manager
    managerName
    scratch := if kind = .file then some (Path.names scratch) else none
    config :=
      { config with
        base := if kind = .file then scratch else config.base
        options := { config.options with memoryOnly := kind != .file } }
    codecFaults := if kind = .failing then some {} else none }

/-- The depot is opened by a manager that is new, and then both get their names. -/
theorem addReadyMade_eq (w : World) (managerName depotName : String) (kind : ReadyMade) (scratch : String) :
    w.addReadyMade managerName depotName kind scratch =
      ((((start (readyMadeDepot w.next managerName kind scratch)).exec
          (w.addManager readyMadeManager).2).2.nameManager managerName w.next).nameDepot depotName
        (((start (readyMadeDepot w.next managerName kind scratch)).exec
          (w.addManager readyMadeManager).2).1.toOption.getD
            (readyMadeDepot w.next managerName kind scratch))) := rfl

theorem placed_readyMadeDepot (w : World) (manager : ManagerRef) (managerName : String) (kind : ReadyMade)
    (scratch : Scratch) : Placed w (readyMadeDepot manager managerName kind scratch) := by
  refine ⟨fun handle hhandle => ?_, fun place hplace => ?_⟩
  · cases hhandle
  · unfold readyMadeDepot at hplace
    simp only at hplace
    split at hplace
    · cases hplace
      exact scratch.2
    · cases hplace

theorem Orderly.addManager (h : Orderly w) {m : Manager} (hm : m.loans = ∅)
    (hguard : ∀ guard, m.guard = some guard → guard.wrappers = []) : Orderly (w.addManager m).2 :=
  ⟨h.accounted.addManager hm hguard, h.matched.addManager h.accounted.booked hm hguard⟩

theorem Orderly.addReadyMadeManager (h : Orderly w) : Orderly (w.addManager readyMadeManager).2 :=
  h.addManager rfl fun guard hguard => by
    cases hguard
    rfl

theorem orderly_addReadyMade (h : Orderly w) (managerName depotName : String) (kind : ReadyMade)
    (scratch : Scratch) : Orderly (w.addReadyMade managerName depotName kind scratch) := by
  rw [addReadyMade_eq]
  exact orderly_nameStarted h.addReadyMadeManager
    (fun w' => placed_readyMadeDepot w' w.next managerName kind scratch) _ _ _

end Orderly

/-! ## Every event -/

section Events

variable {w : World}

/-- Every call leaves an orderly world. -/
theorem matched_step (h : Orderly w) (call : Call) : Matched (step w call) := by
  have hbooked := h.accounted.booked
  cases call with
  | addManager name app user base networked guarded =>
      have hadded : Matched (w.addManager
          { app, user, base, networked, guard := if guarded then some {} else none }).2 := by
        refine h.matched.addManager hbooked rfl fun guard hguard => ?_
        cases guarded <;> cases hguard
        rfl
      have hbooked' := (accounted_step h.accounted (.addManager name app user base networked guarded)).booked
      exact hadded.of_eq (hbooked'.steady (.of_eq rfl rfl rfl)) rfl rfl rfl
  | dropManager name => exact h.matched.of_eq hbooked rfl rfl rfl
  | register device manager =>
      simp only [step]
      split
      · exact h.matched.of_eq hbooked rfl rfl rfl
      · exact h.matched
  | unregister device => exact h.matched.of_eq hbooked rfl rfl rfl
  | setFaults manager faults =>
      simp only [step]
      split
      · refine h.matched.modifyManager hbooked (fun _ => rfl) fun m _ => ?_
        cases m.guard <;> rfl
      · exact h.matched
  | addDepot name manager id config =>
      simp only [step]
      split
      · refine (h.nameDepot name ⟨fun handle hhandle => ?_, fun place hplace => ?_⟩).matched
        · cases hhandle
        · cases hplace
      · exact h.matched
  | dropDepot name => exact (h.dropDepot name).matched
  | start name =>
      simp only [step, onDepot]
      split
      · rename_i d hd
        exact (orderly_startNamed h (h.accounted.depots hd)).matched
      · exact h.matched
  | stop name =>
      simp only [step, onDepot]
      split
      · rename_i d hd
        exact (orderly_stopNamed h (h.accounted.depots hd)).matched
      · exact h.matched
  | edit name edit => exact (keptByCalls_orderly.edit h name edit).matched
  | get name key => exact (keptByCalls_orderly.get h name key).matched
  | getSummary name key => exact (keptByCalls_orderly.getSummary h name key).matched
  | getAll name front => exact (keptByCalls_orderly.getAll h name front).matched
  | sync name devices =>
      simp only [step, onDepot]
      split
      · unfold syncDepot
        split
        · exact (orderly_sync h _ devices .pushOnly).matched
        · exact h.matched
      · exact h.matched

theorem orderly_lendNamed (h : Orderly w) (handle : String) (ref : ManagerRef) (id : String)
    (options : Options) : Orderly ((lendNamed handle ref id options).exec w).2 := by
  refine Ensures.exec_snd (P := Orderly) ?_
  refine Ensures.bind (ensures_lend_orderly h ref id options) ?_
  intro lent w' h'
  exact ensures_modify (h'.1.of_eq (h'.1.accounted.nameHandle handle h'.2) rfl rfl rfl)

theorem matched_openNamed (h : Orderly w) (handle path id : String) (options : Options)
    (networked : Bool) : Matched ((openNamed handle path id options networked).exec w).2 := by
  have hbooked := h.accounted.booked
  rw [exec_openNamed]
  rcases Engine.openDirectory path id options networked w.isDirectoryHeld w.disk with ⟨err | e, disk⟩
  · exact h.matched.of_eq hbooked rfl rfl rfl
  · have hdisk : Matched { w with disk } := h.matched.of_eq hbooked rfl rfl rfl
    have hbooked' : Booked { w with disk } := hbooked.steady (.of_eq rfl rfl rfl)
    have hsteady := steady_addEngine hbooked'.fresh e
    exact (hdisk.addEngine hbooked' e).of_eq (hbooked'.steady hsteady) rfl rfl rfl

/-- Whatever happens, a world stays orderly. -/
theorem orderly_happen (h : Orderly w) (event : Event) : Orderly (happen w event) := by
  have hbooked := h.accounted.booked
  refine ⟨accounted_happen h.accounted event, ?_⟩
  cases event with
  | call call => exact matched_step h call
  | setBase manager base =>
      simp only [happen]
      split
      · exact h.matched.modifyManager hbooked (fun _ => rfl) fun _ _ => rfl
      · exact h.matched
  | lend handle manager id options =>
      simp only [happen]
      split
      · exact (orderly_lendNamed h handle _ id options).matched
      · exact h.matched
  | lendStore handle depot =>
      simp only [happen]
      split
      · split
        · exact (orderly_lendNamed h handle _ _ _).matched
        · exact h.matched
      · exact h.matched
  | reclaim manager handle =>
      simp only [happen]
      split
      · exact of_onHandle h.matched fun handle _ => (h.reclaim _ handle).matched
      · exact h.matched
  | openMemory handle id options networked =>
      have hsteady := steady_addEngine hbooked.fresh { id, options, networked }
      exact (h.matched.addEngine hbooked _).of_eq (hbooked.steady hsteady) rfl rfl rfl
  | openDirectory handle path id options networked =>
      exact matched_openNamed h handle path id options networked
  | dropHandle handle => exact h.matched.of_eq hbooked rfl rfl rfl
  | put handle entries =>
      exact of_onHandle h.matched fun handle _ => (keptByCalls_orderly.put h handle entries).matched
  | delete handle keys =>
      exact of_onHandle h.matched fun handle _ => (keptByCalls_orderly.delete h handle keys).matched
  | scan handle front =>
      exact of_onHandle h.matched fun handle _ => (keptByCalls_orderly.scan h handle front).matched
  | close handle =>
      exact of_onHandle h.matched fun handle _ => h.matched.closeEngine hbooked handle.engine
  | sync handle devices mode =>
      exact of_onHandle h.matched fun handle _ => (orderly_sync h handle devices mode).matched
  | setCodecFaults depot faults =>
      simp only [happen]
      split
      · exact h.matched.of_eq hbooked rfl rfl rfl
      · exact h.matched
  | addReadyMade manager depot kind scratch =>
      exact (orderly_addReadyMade h manager depot kind scratch).matched
  | writeFile path content append => exact h.matched.of_eq hbooked rfl rfl rfl
  | makeDirectories path => exact h.matched.of_eq hbooked rfl rfl rfl
  | flip path position mask => exact h.matched.of_eq hbooked rfl rfl rfl
  | dropEnd path count => exact h.matched.of_eq hbooked rfl rfl rfl

/-- A disk and nothing else. -/
theorem orderly_of_disk (disk : Disk) : Orderly { disk } where
  accounted := accounted_of_disk disk
  matched :=
    { distinct := fun _ => List.nodup_nil
      older := fun hmem => by cases hmem
      lent := fun hmem => by cases hmem
      counted := fun _ hloan => by cases hloan
      filed := fun hloan => by cases hloan }

/-- Whatever follows, a world stays orderly. -/
theorem Orderly.future (h : Orderly w) (events : List Event) : Orderly (World.future w events) := by
  unfold World.future
  induction events generalizing w with
  | nil => exact h
  | cons event events ih => exact ih (orderly_happen h event)

/-- Whatever has happened on whatever disk, the world is orderly. -/
theorem orderly_future (disk : Disk) (events : List Event) : Orderly (future { disk } events) :=
  (orderly_of_disk disk).future events

end Events

end ObjectStore.World
