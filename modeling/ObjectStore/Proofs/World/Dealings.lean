import ObjectStore.Proofs.World.Handouts
import ObjectStore.Proofs.World.Lifecycle

/-!
# Everything that is asked of a manager

A manager is asked for handles and is given handles back: by callers under names of their own, by depots
that are opened, closed, dropped or replaced, and by pushes. `dealsOf` reads all of this with the answers
off an event, and `dealsOver` puts together the log of a whole run. Whatever else happens leaves the
wrappers where they are, and so the log tells of them.

Main statements: `dealt_happen`, `accords_future` and `Alive.future`.
-/

namespace ObjectStore.World

open ObjectStore.Action

/-! ## What is asked of a manager -/

/-- A loan that somebody asks for, if it is asked of this manager. -/
def lendDeals (ref ref' : ManagerRef) (id : String) (options : Options) (w : World) : List Deal :=
  if ref' = ref then [.lend id options ((lend ref' id options).exec w).1] else []

/-- What somebody gives back, if it is given to this manager. It goes with the id of its store. -/
def reclaimDeals (ref ref' : ManagerRef) (handle : Handle) (w : World) : List Deal :=
  if ref' = ref then
    (w.engines.get? handle.engine).toList.map fun e =>
      .reclaim e.id handle ((reclaim ref' handle).exec w).1
  else []

/-- A delivery is lent a handle, and gives it back after the put. -/
def deliverDeals (ref : ManagerRef) (id : String) (options : Options) (es : List Entry) (ref' : ManagerRef)
    (w : World) : List Deal :=
  lendDeals ref ref' id options w ++
    match (lend ref' id options).exec w with
    | (.error _, _) => []
    | (.ok handle, w₁) => reclaimDeals ref ref' handle ((put handle es).exec w₁).2

/-- A push is delivered to the managers of the devices in turn. -/
def pushDeals (ref : ManagerRef) (networked : Bool) (id : String) (options : Options) (es : List Entry) :
    List String → World → List Deal
  | [], _ => []
  | device :: devices, w =>
    match if networked then w.resolve device else none with
    | none => pushDeals ref networked id options es devices w
    | some ref' =>
      deliverDeals ref id options es ref' w ++
        pushDeals ref networked id options es devices ((deliver id options es ref').exec w).2

/-- A request that is refused asks nothing of any manager. -/
def syncDeals (ref : ManagerRef) (handle : Handle) (devices : List String) (mode : SyncMode) (w : World) :
    List Deal :=
  match syncRefusal? handle devices mode w, w.engines.get? handle.engine with
  | none, some e =>
    pushDeals ref e.networked e.id e.options (e.table.scan []) devices (counted handle .sync w)
  | _, _ => []

/-- A depot asks for a handle when it is opened. -/
def startDeals (ref : ManagerRef) (d : Depot) (w : World) : List Deal :=
  match d.phase with
  | .ready _ => []
  | _ => lendDeals ref d.manager d.id d.config.options (based d w)

/-- A depot gives its handle back when it is closed. -/
def stopDeals (ref : ManagerRef) (d : Depot) (w : World) : List Deal :=
  d.handle?.elim [] fun handle => reclaimDeals ref d.manager handle w

/-- A depot that loses its name is closed. -/
def discardDeals (ref : ManagerRef) (old : Option Depot) (w : World) : List Deal :=
  old.elim [] fun d => stopDeals ref d w

/-- A depot takes its name from another one. -/
def nameDeals (ref : ManagerRef) (name : String) (d : Depot) (w : World) : List Deal :=
  discardDeals ref (w.depots.get? name) (w.setDepot name d)

/-- A ready-made depot is opened before it gets its name. -/
def readyMadeDeals (ref : ManagerRef) (managerName depotName : String) (kind : ReadyMade) (scratch : Scratch)
    (w : World) : List Deal :=
  let d := readyMadeDepot w.next managerName kind scratch
  let started := (start d).exec (w.addManager readyMadeManager).2
  startDeals ref d (w.addManager readyMadeManager).2 ++
    nameDeals ref depotName (started.1.toOption.getD d) (started.2.nameManager managerName w.next)

/-- Everything that an event asks of a manager, with the answers. -/
def dealsOf (ref : ManagerRef) (w : World) : Event → List Deal
  | .call (.addDepot name manager id config) =>
    (w.managerNames.get? manager).elim [] fun ref' =>
      nameDeals ref name { id, manager := ref', managerName := manager, config } w
  | .call (.dropDepot name) =>
    discardDeals ref (w.depots.get? name) { w with depots := w.depots.erase name }
  | .call (.start name) => (w.depots.get? name).elim [] fun d => startDeals ref d w
  | .call (.stop name) => (w.depots.get? name).elim [] fun d => stopDeals ref d w
  | .call (.sync name devices) =>
    ((w.depots.get? name).bind Depot.handle?).elim [] fun handle =>
      syncDeals ref handle devices .pushOnly w
  | .lend _ manager id options =>
    (w.managerNames.get? manager).elim [] fun ref' => lendDeals ref ref' id options w
  | .lendStore _ name =>
    (w.depots.get? name).elim [] fun d =>
      (w.managerNamedBy d).elim [] fun named => lendDeals ref named.1 d.id d.config.options w
  | .reclaim manager name =>
    (w.managerNames.get? manager).elim [] fun ref' =>
      (w.handleNames.get? name).elim [] fun handle => reclaimDeals ref ref' handle w
  | .sync name devices mode =>
    (w.handleNames.get? name).elim [] fun handle => syncDeals ref handle devices mode w
  | .addReadyMade managerName depotName kind scratch =>
    readyMadeDeals ref managerName depotName kind scratch w
  | _ => []

/-- Everything that is asked of a manager in a run. -/
def dealsOver (ref : ManagerRef) : World → List Event → List Deal
  | _, [] => []
  | w, event :: events => dealsOf ref w event ++ dealsOver ref (happen w event) events

/-- Somebody closes an engine past the manager that has it on loan. -/
def Shuts (w : World) (ref : ManagerRef) (event : Event) : Prop :=
  ∃ name handle, event = .close name ∧ w.handleNames.get? name = some handle ∧
    w.IsLent ref handle.engine

/-- In a whole run nobody closes past the manager what it has on loan. -/
def Unshut (ref : ManagerRef) : World → List Event → Prop
  | _, [] => True
  | w, event :: events => ¬ Shuts w ref event ∧ Unshut ref (happen w event) events

/-! ## Loans, returns and deliveries -/

section Asking

variable (ref : ManagerRef) {w : World}

theorem dealt_lendDeals (hbooked : Booked w) (ref' : ManagerRef) (id : String) (options : Options) :
    Dealt ref w (lendDeals ref ref' id options w) ((lend ref' id options).exec w).2 := by
  unfold lendDeals
  by_cases heq : ref' = ref
  · subst heq
    rw [if_pos rfl]
    exact dealt_lend hbooked id options
  · -- What another manager lends is none of this manager's business.
    rw [if_neg heq]
    have haside := Ensures.exec_snd (aside_lend hbooked (Ne.symm heq) id options)
    exact haside.2.dealt_nil

theorem dealt_reclaimDeals (hmatched : Matched w) (hbooked : Booked w) (ref' : ManagerRef)
    (handle : Handle) :
    Dealt ref w (reclaimDeals ref ref' handle w) ((reclaim ref' handle).exec w).2 := by
  unfold reclaimDeals
  by_cases heq : ref' = ref
  · subst heq
    rw [if_pos rfl]
    cases he : w.engines.get? handle.engine with
    | some e => exact dealt_reclaim hmatched hbooked he
    | none =>
        rw [exec_reclaim_of_no_engine ref' he]
        exact (Aside.refl ref' w).dealt_nil
  · rw [if_neg heq]
    exact (aside_reclaim hbooked (Ne.symm heq) handle).dealt_nil

theorem dealt_deliver (h : Orderly w) (id : String) (options : Options) (es : List Entry)
    (ref' : ManagerRef) :
    Dealt ref w (deliverDeals ref id options es ref' w) ((deliver id options es ref').exec w).2 := by
  have hlend := dealt_lendDeals ref h.accounted.booked ref' id options
  have horderly := orderly_lend h ref' id options
  unfold deliverDeals
  rw [exec_deliver_eq]
  generalize lendDeals ref ref' id options w = deals at hlend ⊢
  generalize (lend ref' id options).exec w = lent at hlend horderly ⊢
  rcases lent with ⟨err | handle, w₁⟩
  · rw [List.append_nil]
    exact hlend
  · -- The put leaves all loans alone, and then the handle is given back.
    have haside := (keptByCalls_aside ref w₁).put (.refl ref w₁) handle es
    have hput := keptByCalls_orderly.put horderly handle es
    have hreclaim := dealt_reclaimDeals ref hput.matched hput.accounted.booked ref' handle
    exact hlend.trans (hreclaim.after haside horderly.matched) h.matched

theorem dealt_pushAll (h : Orderly w) (networked : Bool) (id : String) (options : Options)
    (es : List Entry) (devices : List String) (outcome : SyncOutcome) :
    Dealt ref w (pushDeals ref networked id options es devices w)
      ((pushAll networked id options es devices outcome).run w).2 := by
  -- Each delivery leaves an orderly world to the next one.
  induction devices generalizing w outcome with
  | nil => exact (Aside.refl ref w).dealt_nil
  | cons device devices ih =>
      rw [pushAll, StateT.run_bind, run_pushTo, pushDeals]
      cases if networked then w.resolve device else none with
      | none => exact ih h _
      | some ref' =>
          have horderly := orderly_deliver h id options es ref'
          exact (dealt_deliver ref h id options es ref').trans (ih horderly _) h.matched

theorem dealt_sync (h : Orderly w) (handle : Handle) (devices : List String) (mode : SyncMode) :
    Dealt ref w (syncDeals ref handle devices mode w) ((sync handle devices mode).exec w).2 := by
  have hfaults := setsFaults_counted handle .sync w
  unfold syncDeals
  rcases exec_sync_cases handle devices mode w with
    ⟨err, hrefusal, hexec⟩ | ⟨hrefusal, e, outcome, w', he, hpush, hexec⟩
  · rw [hrefusal, hexec]
    exact (hfaults.aside ref).dealt_nil
  · have hpushed := dealt_pushAll ref (keptByCalls_orderly.setsFaults h hfaults) e.networked e.id
      e.options (e.table.scan []) devices ∅
    rw [hpush] at hpushed
    rw [hrefusal, he, hexec]
    exact hpushed.after (hfaults.aside ref) h.matched

end Asking

/-! ## Depots -/

section Depots

variable (ref : ManagerRef) {w : World}

theorem dealt_start (hmatched : Matched w) (hbooked : Booked w) (d : Depot) :
    Dealt ref w (startDeals ref d w) ((start d).exec w).2 := by
  by_cases hstate : d.state = .ready
  · obtain ⟨handle, hphase⟩ := exists_handle_of_state hstate
    unfold startDeals start
    rw [hphase]
    exact (Aside.refl ref w).dealt_nil
  · have hdeals : startDeals ref d w = lendDeals ref d.manager d.id d.config.options (based d w) := by
      unfold startDeals
      split
      · rename_i handle hphase
        exact absurd (state_of_phase hphase) hstate
      · rfl
    -- What the manager is told before it lends has nothing to do with its loans.
    have hbased : Aside ref w (based d w) := .modifyManager (fun _ => rfl) fun _ _ => rfl
    have hlend := dealt_lendDeals ref (hbooked.steady (steady_modifyManager fun _ => rfl) :
      Booked (based d w)) d.manager d.id d.config.options
    rw [hdeals, exec_start hstate]
    generalize lendDeals ref d.manager d.id d.config.options (based d w) = deals at hlend ⊢
    generalize (lend d.manager d.id d.config.options).exec (based d w) = lent at hlend ⊢
    rcases lent with ⟨err | handle, w'⟩
    · exact hlend.after hbased hmatched
    · exact hlend.after hbased hmatched

theorem dealt_stop (hmatched : Matched w) (hbooked : Booked w) (d : Depot) :
    Dealt ref w (stopDeals ref d w) ((stop d).run w).2 := by
  unfold stopDeals Depot.handle? stop
  cases d.phase with
  | uninitialized => exact (Aside.refl ref w).dealt_nil
  | closed => exact (Aside.refl ref w).dealt_nil
  | ready handle => exact dealt_reclaimDeals ref hmatched hbooked d.manager handle

theorem dealt_discardDepot (hmatched : Matched w) (hbooked : Booked w) (old : Option Depot) :
    Dealt ref w (discardDeals ref old w) (discardDepot old w) := by
  cases old with
  | none => exact (Aside.refl ref w).dealt_nil
  | some d =>
      have hstop := dealt_stop ref hmatched hbooked d
      unfold discardDepot
      simp only
      split
      · exact hstop.before (aside_removeDirectory _) hmatched
      · exact hstop

theorem dealt_nameDepot (hmatched : Matched w) (hbooked : Booked w) (name : String) (d : Depot) :
    Dealt ref w (nameDeals ref name d w) (w.nameDepot name d) := by
  have hdiscard := dealt_discardDepot ref (w := w.setDepot name d)
    (hmatched.of_eq hbooked rfl rfl rfl) (hbooked.steady (.of_eq rfl rfl rfl)) (w.depots.get? name)
  exact hdiscard.after (aside_setDepot name d) hmatched

theorem dealt_dropDepot (hmatched : Matched w) (hbooked : Booked w) (name : String) :
    Dealt ref w (discardDeals ref (w.depots.get? name) { w with depots := w.depots.erase name })
      (w.dropDepot name) := by
  have hdropped : Aside ref w { w with depots := w.depots.erase name } := .of_eq rfl rfl rfl
  have hdiscard := dealt_discardDepot ref (w := { w with depots := w.depots.erase name })
    (hmatched.of_eq hbooked rfl rfl rfl) (hbooked.steady (.of_eq rfl rfl rfl)) (w.depots.get? name)
  exact hdiscard.after hdropped hmatched

/-- A manager that is new has nothing on loan. -/
theorem dealt_addManager (hbooked : Booked w) {m : Manager} (hm : m.loans = ∅)
    (hguard : ∀ guard, m.guard = some guard → guard.wrappers = []) :
    Dealt ref w [] (w.addManager m).2 := by
  by_cases hnew : ref = w.next
  · -- There was no manager of this reference, and so it had handed out nothing.
    have hget : (w.addManager m).2.managers.get? ref = some m := by
      rw [hnew]
      exact (SortedMap.get?_insert w.managers w.next m w.next).trans (if_pos rfl)
    have hnone : w.managers.get? ref = none := (hbooked.fresh ref (Nat.le_of_eq hnew.symm)).2
    refine ⟨.of_same (Nat.le_succ _) (fun hsome => ?_) (fun he => ⟨_, he, rfl⟩) (fun handle => ?_) rfl rfl,
      fun _ id loan hloan => ?_⟩
    · simp [guarded?, hnone] at hsome
    · unfold World.handedOut wrappers
      rw [hget, hnone]
      cases hm' : m.guard with
      | none => simp [hm']
      | some guard => simp [hm', hguard guard hm']
    · rw [loan?, hget, Option.bind_some, hm] at hloan
      cases hloan
  · exact (aside_addManager hbooked.fresh hnew hm).dealt_nil

theorem dealt_addReadyMade (h : Orderly w) (managerName depotName : String) (kind : ReadyMade)
    (scratch : Scratch) :
    Dealt ref w (readyMadeDeals ref managerName depotName kind scratch w)
      (w.addReadyMade managerName depotName kind scratch) := by
  have hmanager := h.addReadyMadeManager
  have hadded : Dealt ref w [] (w.addManager readyMadeManager).2 :=
    dealt_addManager ref h.accounted.booked rfl fun guard hguard => by
      cases hguard
      rfl
  rw [addReadyMade_eq]
  unfold readyMadeDeals
  simp only
  generalize hd : readyMadeDepot w.next managerName kind scratch = d
  have hplaced : Placed (w.addManager readyMadeManager).2 d := by
    rw [← hd]
    exact placed_readyMadeDepot _ w.next managerName kind scratch
  -- The manager comes first, then the depot is opened, and then another one may lose its name.
  have hstart := dealt_start ref hmanager.matched hmanager.accounted.booked d
  have horderly := orderly_start hmanager hplaced
  generalize (start d).exec (w.addManager readyMadeManager).2 = started at hstart horderly ⊢
  have hnamed : Aside ref started.2 (started.2.nameManager managerName w.next) := .of_eq rfl rfl rfl
  have hname := dealt_nameDepot ref (w := started.2.nameManager managerName w.next)
    (horderly.matched.of_eq horderly.accounted.booked rfl rfl rfl)
    (horderly.accounted.booked.steady (.of_eq rfl rfl rfl)) depotName (started.1.toOption.getD d)
  have hopened := hstart.trans (hname.after hnamed horderly.matched) hmanager.matched
  exact hadded.trans hopened h.matched

end Depots

/-! ## Every event -/

section Events

variable (ref : ManagerRef) {w : World}

theorem dealt_lendNamed (hmatched : Matched w) (hbooked : Booked w) (handle : String) (ref' : ManagerRef)
    (id : String) (options : Options) :
    Dealt ref w (lendDeals ref ref' id options w) ((lendNamed handle ref' id options).exec w).2 := by
  have hlend := dealt_lendDeals ref hbooked ref' id options
  unfold lendNamed
  rw [exec_bind]
  generalize lendDeals ref ref' id options w = deals at hlend ⊢
  generalize (lend ref' id options).exec w = answered at hlend ⊢
  rcases answered with ⟨err | lent, w'⟩
  · exact hlend
  · exact hlend.before (.of_eq rfl rfl rfl) hmatched

theorem dealt_startNamed (hmatched : Matched w) (hbooked : Booked w) (name : String) (d : Depot) :
    Dealt ref w (startDeals ref d w) ((startNamed name d).exec w).2 := by
  have hstart := dealt_start ref hmatched hbooked d
  unfold startNamed
  rw [exec_bind]
  generalize startDeals ref d w = deals at hstart ⊢
  generalize (start d).exec w = started at hstart ⊢
  rcases started with ⟨err | d', w'⟩
  · exact hstart
  · exact hstart.before (aside_setDepot name d') hmatched

theorem dealt_syncDepot (h : Orderly w) (d : Depot) (devices : List String) :
    Dealt ref w (d.handle?.elim [] fun handle => syncDeals ref handle devices .pushOnly w)
      ((syncDepot d devices).exec w).2 := by
  unfold syncDepot Depot.handle?
  cases d.phase with
  | uninitialized => exact (Aside.refl ref w).dealt_nil
  | closed => exact (Aside.refl ref w).dealt_nil
  | ready handle =>
      have hsync := dealt_sync ref h handle devices .pushOnly
      simp only [exec_mapError, Option.elim_some]
      generalize syncDeals ref handle devices .pushOnly w = deals at hsync ⊢
      generalize (sync handle devices .pushOnly).exec w = answered at hsync ⊢
      rcases answered with ⟨err | outcome, w'⟩
      · exact hsync
      · exact hsync

theorem dealt_step (h : Orderly w) (call : Call) :
    Dealt ref w (dealsOf ref w (.call call)) (step w call) := by
  have hbooked := h.accounted.booked
  have hrefl : Aside ref w w := .refl ref w
  have hcalls := keptByCalls_aside ref w
  cases call with
  | addManager name app user base networked guarded =>
      have hadded : Dealt ref w [] (w.addManager
          { app, user, base, networked, guard := if guarded then some {} else none }).2 := by
        refine dealt_addManager ref hbooked rfl fun guard hguard => ?_
        cases guarded <;> cases hguard
        rfl
      exact hadded.before (.of_eq rfl rfl rfl) h.matched
  | dropManager name => exact Aside.dealt_nil (.of_eq rfl rfl rfl)
  | register device manager =>
      simp only [step]
      split
      · exact Aside.dealt_nil (.of_eq rfl rfl rfl)
      · exact hrefl.dealt_nil
  | unregister device => exact Aside.dealt_nil (.of_eq rfl rfl rfl)
  | setFaults manager faults =>
      simp only [step]
      split
      · refine Aside.dealt_nil (.modifyManager (fun _ => rfl) fun m _ => ?_)
        cases m.guard <;> rfl
      · exact hrefl.dealt_nil
  | addDepot name manager id config =>
      simp only [step, dealsOf]
      cases w.managerNames.get? manager with
      | none => exact hrefl.dealt_nil
      | some ref' => exact dealt_nameDepot ref h.matched hbooked name _
  | dropDepot name => exact dealt_dropDepot ref h.matched hbooked name
  | start name =>
      simp only [step, onDepot, dealsOf]
      cases w.depots.get? name with
      | none => exact hrefl.dealt_nil
      | some d => exact dealt_startNamed ref h.matched hbooked name d
  | stop name =>
      simp only [step, onDepot, dealsOf]
      cases w.depots.get? name with
      | none => exact hrefl.dealt_nil
      | some d =>
          have hstop := dealt_stop ref h.matched hbooked d
          exact hstop.before (aside_setDepot name ((World.stop d).run w).1) h.matched
  | edit name edit => exact (hcalls.edit hrefl name edit).dealt_nil
  | get name key => exact (hcalls.get hrefl name key).dealt_nil
  | getSummary name key => exact (hcalls.getSummary hrefl name key).dealt_nil
  | getAll name front => exact (hcalls.getAll hrefl name front).dealt_nil
  | sync name devices =>
      simp only [step, onDepot, dealsOf]
      cases w.depots.get? name with
      | none => exact hrefl.dealt_nil
      | some d => exact dealt_syncDepot ref h d devices

/-- Whatever happens, the deals of an event tell what becomes of the wrappers, and what is on loan stays open
unless it is closed past the manager. -/
theorem dealt_happen (h : Orderly w) {event : Event} (hnot : ¬ Shuts w ref event) :
    Dealt ref w (dealsOf ref w event) (happen w event) := by
  have hbooked := h.accounted.booked
  have hrefl : Aside ref w w := .refl ref w
  have hcalls := keptByCalls_aside ref w
  cases event with
  | close name =>
      simp only [happen, onHandle, dealsOf]
      cases hname : w.handleNames.get? name with
      | none => exact hrefl.dealt_nil
      | some handle =>
          exact (aside_closeEngine fun hlent => hnot ⟨name, handle, rfl, hname, hlent⟩).dealt_nil
  | call call => exact dealt_step ref h call
  | setBase manager base =>
      refine Aside.dealt_nil ?_
      simp only [happen]
      split
      · exact .modifyManager (fun _ => rfl) fun _ _ => rfl
      · exact hrefl
  | lend handle manager id options =>
      simp only [happen, dealsOf]
      cases w.managerNames.get? manager with
      | none => exact hrefl.dealt_nil
      | some ref' => exact dealt_lendNamed ref h.matched hbooked handle ref' id options
  | lendStore handle depot =>
      simp only [happen, dealsOf]
      cases w.depots.get? depot with
      | none => exact hrefl.dealt_nil
      | some d =>
          simp only [Option.elim_some]
          cases w.managerNamedBy d with
          | none => exact hrefl.dealt_nil
          | some named => exact dealt_lendNamed ref h.matched hbooked handle named.1 d.id d.config.options
  | reclaim manager name =>
      simp only [happen, onHandle, dealsOf]
      cases w.managerNames.get? manager with
      | none => exact hrefl.dealt_nil
      | some ref' =>
          simp only [Option.elim_some]
          cases w.handleNames.get? name with
          | none => exact hrefl.dealt_nil
          | some handle => exact dealt_reclaimDeals ref h.matched hbooked ref' handle
  | sync name devices mode =>
      simp only [happen, onHandle, dealsOf]
      cases w.handleNames.get? name with
      | none => exact hrefl.dealt_nil
      | some handle => exact dealt_sync ref h handle devices mode
  | addReadyMade manager depot kind scratch => exact dealt_addReadyMade ref h manager depot kind scratch
  | openMemory handle id options networked =>
      have hadded : Aside ref w (w.addEngine { id, options, networked }).2 := aside_addEngine hbooked.fresh _
      exact Aside.dealt_nil (hadded.trans (.of_eq rfl rfl rfl))
  | openDirectory handle path id options networked =>
      exact (aside_openNamed h.accounted handle path id options networked).dealt_nil
  | dropHandle handle => exact Aside.dealt_nil (.of_eq rfl rfl rfl)
  | put name entries =>
      refine Aside.dealt_nil ?_
      exact of_onHandle hrefl fun handle _ => hcalls.put hrefl handle entries
  | delete name keys =>
      refine Aside.dealt_nil ?_
      exact of_onHandle hrefl fun handle _ => hcalls.delete hrefl handle keys
  | scan name front =>
      refine Aside.dealt_nil ?_
      exact of_onHandle hrefl fun handle _ => hcalls.scan hrefl handle front
  | setCodecFaults depot faults =>
      refine Aside.dealt_nil ?_
      simp only [happen]
      split
      · exact aside_setDepot depot _
      · exact hrefl
  | writeFile path content append => exact Aside.dealt_nil (.of_eq rfl rfl rfl)
  | makeDirectories path => exact Aside.dealt_nil (.of_eq rfl rfl rfl)
  | flip path position mask => exact Aside.dealt_nil (.of_eq rfl rfl rfl)
  | dropEnd path count => exact Aside.dealt_nil (.of_eq rfl rfl rfl)

/-- To close an engine past its manager takes no wrapper back. -/
theorem accords_closeEngine (w : World) (engine : EngineRef) :
    Accords ref w [] (closeEngine w engine) := by
  obtain ⟨-, -, hmanagers, -⟩ := ways_closeEngine w engine
  have hmanager : (closeEngine w engine).managers.get? ref = w.managers.get? ref := by rw [hmanagers]
  refine .of_same (Nat.le_of_eq (next_closeEngine w engine).symm) (fun _ => guarded?_of_managers hmanager)
    (fun he => ?_) (fun handle => ?_) rfl rfl
  · have hclosed := engines_closeEngine engine he
    split at hclosed
    · exact ⟨_, hclosed, rfl⟩
    · exact ⟨_, hclosed, rfl⟩
  · unfold World.handedOut
    rw [wrappers_of_managers hmanager]

/-- The deals of an event tell of the wrappers also where an engine is closed past the manager. -/
theorem accords_happen (h : Orderly w) (event : Event) :
    Accords ref w (dealsOf ref w event) (happen w event) := by
  by_cases hshuts : Shuts w ref event
  · obtain ⟨name, handle, rfl, hname, -⟩ := hshuts
    simp only [happen, onHandle, hname]
    exact accords_closeEngine ref w handle.engine
  · exact (dealt_happen ref h hshuts).toAccords

/-- The log of a run tells what has become of the wrappers. -/
theorem accords_future (h : Orderly w) (events : List Event) :
    Accords ref w (dealsOver ref w events) (future w events) := by
  induction events generalizing w with
  | nil => exact (Aside.refl ref w).dealt_nil.toAccords
  | cons event events ih => exact (accords_happen ref h event).trans (ih (orderly_happen h event)) h.matched

variable {ref}

/-- What is on loan is open, as long as nobody closes it past the manager. -/
theorem Alive.future (halive : Alive w ref) (h : Orderly w) (events : List Event)
    (hunshut : Unshut ref w events) : Alive (World.future w events) ref := by
  induction events generalizing w with
  | nil => exact halive
  | cons event events ih =>
      obtain ⟨hnot, hrest⟩ := hunshut
      exact ih ((dealt_happen ref h hnot).alive halive) (orderly_happen h event) hrest

end Events

end ObjectStore.World
