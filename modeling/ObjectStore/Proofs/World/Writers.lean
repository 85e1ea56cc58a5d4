import ObjectStore.Proofs.World.Names
import ObjectStore.Proofs.World.Shifts

/-!
# What callers do is a number of shifts

Engines are opened by themselves or lent by managers and to depots, handles come back and names go, pushes
borrow and return in between, and engines are written to by whoever holds them. All of that is made of
shifts, as long as nobody damages the files under the engines and no directory goes with a depot.

Main statement: `shifts_happen`.
-/

namespace ObjectStore.World

open ObjectStore.Action
open Engine (logPlace)

/-! ## Shifts under the same names -/

/-- Shifts under the same names. -/
structure Alters (w w' : World) : Prop where
  shifts : Shifts w w'
  names : SameNames w w'

namespace Alters

variable {w w' w'' : World}

theorem refl (w : World) : Alters w w := ⟨.refl, .refl w⟩

theorem trans (h : Alters w w') (h' : Alters w' w'') : Alters w w'' :=
  ⟨h.shifts.trans h'.shifts, h.names.trans h'.names⟩

theorem of_still (h : Still w w') (hhas : ∀ r, w.Has r → w'.Has r) : Alters w w' :=
  ⟨.single (.tame h.1 hhas), h.2⟩

/-- A manager may be changed as long as it holds no more than before. -/
theorem modifyManager {ref : ManagerRef} {f : Manager → Manager}
    (h : ∀ m r, w.managers.get? ref = some m → (f m).holds r = true → m.holds r = true) :
    Alters w (w.modifyManager ref f) :=
  of_still ⟨.modifyManager h, sameNames_modifyManager w ref f⟩ fun r hr => by
    unfold Has
    rwa [engines_modifyManager]

end Alters

theorem SetsFaults.alters {w w' : World} (h : SetsFaults w w') : Alters w w' :=
  .of_still ⟨h.tame, h.sameNames⟩ h.sameBooks.steady.has

section Calls

variable {w w' : World} {handle : Handle}

/-- Shifts have led from `w₀` to a world where the engine behind the handle is held. -/
structure Drives (w₀ : World) (handle : Handle) (w : World) : Prop where
  alters : Alters w₀ w
  held : w.isEngineHeld handle.engine = true

theorem tracks_drives (w₀ : World) (handle : Handle) :
    Tracks handle (Drives w₀ handle) (Drives w₀ handle) fun _ => True where
  setsFaults h hfaults :=
    { alters := h.alters.trans hfaults.alters
      held := hfaults.isEngineHeld_iff.mpr h.held }
  accepted h he hwrite _ :=
    { alters := h.alters.trans ⟨.single (.write h.held he hwrite), rfl, rfl, rfl⟩
      held := h.held }
  after_of_before h := h

end Calls

/-! ## Loans and returns -/

section Lending

variable {w w' : World} {ref : ManagerRef} {id : String} {options : Options} {handle : Handle}

/-- A manager that lends comes to hold at most the engine that it lends. -/
theorem LendsHandle.isEngineHeld_cases (h : LendsHandle w ref id options handle w') {r : EngineRef}
    (hheld : w'.isEngineHeld r = true) :
    w.isEngineHeld r = true ∨ r = handle.engine ∧ w.isManagerHeld ref = true := by
  have hnames := h.lends.ways.names
  -- Names stay, so that only the loans and the wrappers of the manager can hold more than before.
  rcases isEngineHeld_iff_books.mp hheld with
    ⟨name, handle', hname, rfl⟩ | ⟨ref', hheld', hmanager⟩ | ⟨name, d, handle', hd, hhandle, rfl⟩
  · rw [hnames.handleNames] at hname
    exact .inl (isEngineHeld_iff_books.mpr (.inl ⟨name, handle', hname, rfl⟩))
  · rw [hnames.isManagerHeld] at hheld'
    rcases hmanager with ⟨id', loan, hloan, rfl⟩ | ⟨serial, hmem⟩
    · rcases h.lends.loan_cases hloan with ⟨⟨rfl, -⟩, hengine, -⟩ | hold
      · exact .inr ⟨hengine, hheld'⟩
      · exact .inl (isEngineHeld_iff_books.mpr (.inr (.inl ⟨ref', hheld', .inl ⟨id', loan, hold, rfl⟩⟩)))
    · rw [h.guards.2] at hmem
      rcases List.mem_append.mp hmem with hold | hnew
      · exact .inl (isEngineHeld_iff_books.mpr (.inr (.inl ⟨ref', hheld', .inr ⟨serial, hold⟩⟩)))
      · split at hnew
        · rename_i heq
          subst heq
          cases handle with
          | direct => cases hnew
          | wrapped =>
              cases List.mem_singleton.mp hnew
              exact .inr ⟨rfl, hheld'⟩
        · cases hnew
  · rw [hnames.depots] at hd
    exact .inl (isEngineHeld_iff_books.mpr (.inr (.inr ⟨name, d, handle', hd, hhandle, rfl⟩)))

/-- A loan opens an engine, or it takes one that the manager has already. -/
theorem LendsHandle.alters (h : LendsHandle w ref id options handle w') (hfresh : Fresh w) :
    Alters w w' := by
  refine ⟨.single ?_, h.lends.ways.names⟩
  cases h.lends.source with
  | @again loan e hloan hengine _ _ hengines hdisk =>
      -- The engine was on loan before, and so the manager held it.
      refine .tame (.of_engines_eq hdisk hengines fun {r} hheld => ?_) fun r hr => ?_
      · rcases h.isEngineHeld_cases hheld with hold | ⟨rfl, hmanager⟩
        · exact hold
        · exact isEngineHeld_iff_books.mpr
            (.inr (.inl ⟨ref, hmanager, .inl ⟨id, loan, hloan, hengine⟩⟩))
      · unfold Has
        rwa [hengines]
  | @first m e _ hnext _ hopens hengines =>
      rw [hnext] at hengines
      have hheld (r : EngineRef) (hheld : w'.isEngineHeld r = true) :
          w.isEngineHeld r = true ∨ r = w.next := by
        rcases h.isEngineHeld_cases hheld with hold | ⟨hnew, -⟩
        · exact .inl hold
        · exact .inr (hnew.trans hnext)
      cases hopens with
      | memory _ hdisk he => exact .make hfresh (by rw [he]; rfl) hdisk hengines hheld
      | directory _ _ hopen => exact .openDirectory hfresh hopen hengines hheld

theorem Refused.alters (h : Refused w w') : Alters w w' := by
  cases h with
  | same => exact .refl w
  | directory hopen =>
      exact ⟨.single (.grow (extends_of_openDirectory_error hopen)
        (Engine.content?_of_openDirectory_error hopen)), rfl, rfl, rfl⟩

theorem alters_lend (hfresh : Fresh w) (ref : ManagerRef) (id : String) (options : Options) :
    (lend ref id options).Ensures w (fun _ w' => Alters w w') fun _ w' => Alters w w' :=
  (ensures_lend ref id options w).weaken (fun _ _ h => h.alters hfresh) fun _ _ h => h.alters

/-- A return takes no engine away. -/
theorem has_reclaim (ref : ManagerRef) (handle : Handle) (w : World) (r : EngineRef) (hr : w.Has r) :
    ((reclaim ref handle).exec w).2.Has r := by
  refine Ensures.exec_snd (P := fun w' => w'.Has r)
    ((ensures_reclaim_books ref handle w).weaken ?_ ?_)
  · rintro - w' ⟨e, -, hreturns⟩
    exact hreturns.has r hr
  · exact fun _ _ hrefused => hrefused.1.steady.has r hr

theorem alters_reclaim (ref : ManagerRef) (handle : Handle) (w : World) :
    Alters w ((reclaim ref handle).exec w).2 :=
  .of_still (still_reclaim ref handle w) (has_reclaim ref handle w)

end Lending

/-! ## Pushes -/

section Pushes

variable {w : World}

/-- A manager that is held keeps what it lends for a delivery within reach of the delivery. -/
theorem alters_deliver (h : Accounted w) {ref : ManagerRef} (hheld : w.isManagerHeld ref = true)
    (id : String) (options : Options) (es : List Entry) :
    Alters w ((deliver id options es ref).exec w).2 := by
  rcases exec_deliver_cases id options es ref w with
    ⟨err, w', hdenies, hexec⟩ | ⟨handle, w₁, written, w₂, released, w₃, hlends, -, hput, hreclaim, hexec⟩
  · rw [hexec]
    exact hdenies.refused.alters
  · obtain ⟨m, hm, hholds⟩ := hlends.lent.manager
    have hlent := hlends.alters h.booked.fresh
    -- The manager holds the engine as long as the loan is out, so that nobody else can open its log.
    have hdrives : Drives w handle w₁ :=
      ⟨hlent, isEngineHeld_of_manager hm ((hlent.names.isManagerHeld ref).trans hheld) hholds⟩
    have hputs := (tracks_drives w handle).put hdrives es
    have hreturned := alters_reclaim ref handle w₂
    rw [hput] at hputs
    rw [hreclaim] at hreturned
    rw [hexec]
    exact hputs.alters.trans hreturned

theorem alters_pushAll (h : Accounted w) (networked : Bool) (id : String) (options : Options)
    (es : List Entry) (devices : List String) (outcome : SyncOutcome) :
    Alters w ((pushAll networked id options es devices outcome).run w).2 := by
  induction devices generalizing w outcome with
  | nil => exact .refl w
  | cons device devices ih =>
      rw [pushAll, StateT.run_bind, run_pushTo]
      split
      · exact ih h _
      · rename_i ref hdevice
        have hresolve : w.resolve device = some ref := by
          split at hdevice
          · exact hdevice
          · cases hdevice
        exact (alters_deliver h (isManagerHeld_of_resolve hresolve) id options es).trans
          (ih (accounted_deliver h id options es ref) _)

theorem alters_sync (h : Accounted w) (handle : Handle) (devices : List String) (mode : SyncMode) :
    Alters w ((sync handle devices mode).exec w).2 := by
  have hcounted := setsFaults_counted handle .sync w
  rcases exec_sync_cases handle devices mode w with
    ⟨err, -, hexec⟩ | ⟨-, e, outcome, w', -, hpush, hexec⟩
  · rw [hexec]
    exact hcounted.alters
  · have hpushed := alters_pushAll (h.setsFaults hcounted) e.networked e.id e.options
      (e.table.scan []) devices ∅
    rw [hpush] at hpushed
    rw [hexec]
    exact hcounted.alters.trans hpushed

end Pushes

/-! ## The life of a depot -/

/-- No directory goes with a depot. -/
def Unscratched (w : World) : Prop :=
  ∀ name d, w.depots.get? name = some d → d.scratch = none

section Life

variable {w w' : World} {name : String} {d : Depot}

theorem SameNames.unscratched (h : SameNames w w') (hw : Unscratched w) : Unscratched w' := by
  intro name d hd
  rw [h.depots] at hd
  exact hw name d hd

theorem unscratched_setDepot (hw : Unscratched w) (name : String) (hd : d.scratch = none) :
    Unscratched (w.setDepot name d) := by
  intro name' d' hd'
  rw [show (w.setDepot name d).depots = w.depots.insert name d from rfl, SortedMap.get?_insert] at hd'
  split at hd'
  · cases hd'
    exact hd
  · exact hw name' d' hd'

/-- A depot may get a name if it holds nothing new. -/
theorem shifts_setDepot (name : String) (hmanager : w.isManagerHeld d.manager = true)
    (hhandle : ∀ handle, d.handle? = some handle → w.isEngineHeld handle.engine = true) :
    Shifts w (w.setDepot name d) :=
  .single (.tame (.setDepot hmanager hhandle) fun _ hr => hr)

theorem alters_stop (d : Depot) (w : World) : Alters w ((stop d).run w).2 := by
  unfold stop
  cases d.phase with
  | uninitialized => exact .refl w
  | closed => exact .refl w
  | ready handle => exact alters_reclaim d.manager handle w

theorem alters_discardDepot {old : Option Depot} (hold : ∀ d, old = some d → d.scratch = none)
    (w : World) : Alters w (discardDepot old w) := by
  unfold discardDepot
  split
  · rename_i d
    rw [hold d rfl]
    exact alters_stop d w
  · exact .refl w

theorem alters_start (h : Booked w) (d : Depot) :
    (start d).Ensures w (fun _ w' => Alters w w') fun _ w' => Alters w w' := by
  unfold start
  split
  · exact ensures_pure (.refl w)
  · have hbase : Alters w (w.modifyManager d.manager fun m => { m with base := some d.config.base }) :=
      .modifyManager fun _ _ _ hr => hr
    refine Ensures.bind (P := fun _ w' => Alters w w' ∧ Booked w')
      (ensures_modify ⟨hbase, h.steady (steady_modifyManager fun _ => rfl)⟩) ?_
    rintro - w₁ ⟨hw₁, hbooked⟩
    refine Ensures.bind (P := fun _ w' => Alters w w') (ensures_mapError
      ((alters_lend hbooked.fresh d.manager d.id d.config.options).weaken
        (fun _ _ h => hw₁.trans h) fun _ _ h => hw₁.trans h)) ?_
    exact fun handle w₂ hw₂ => ensures_pure hw₂

theorem shifts_startNamed (h : Booked w) (hw : Unscratched w) (hd : w.depots.get? name = some d) :
    Shifts w ((startNamed name d).exec w).2 ∧ Unscratched ((startNamed name d).exec w).2 := by
  refine Ensures.exec_snd (P := fun w' => Shifts w w' ∧ Unscratched w') ?_
  refine Ensures.bind (((alters_start h d).and (ensures_start hd)).weaken (fun _ _ h => h) ?_) ?_
  · exact fun _ w' h => ⟨h.1.shifts, h.1.names.unscratched hw⟩
  · rintro p w' ⟨halters, -, hmanager, -, hscratch, hhandle⟩
    refine ensures_modify ⟨halters.shifts.trans (shifts_setDepot name ?_ hhandle),
      unscratched_setDepot (halters.names.unscratched hw) name (hscratch.trans (hw name d hd))⟩
    rw [hmanager, halters.names.isManagerHeld]
    exact isManagerHeld_of_depot hd

theorem shifts_stopNamed (hw : Unscratched w) (hd : w.depots.get? name = some d) :
    Shifts w ((stopNamed name d).run w).2 ∧ Unscratched ((stopNamed name d).run w).2 := by
  have halters := alters_stop d w
  have hrun : ((stopNamed name d).run w).2 =
      ((stop d).run w).2.setDepot name { d with phase := .closed } := by
    rw [← stop_fst d w]
    rfl
  rw [hrun]
  refine ⟨halters.shifts.trans (shifts_setDepot name ?_ fun handle h => ?_),
    unscratched_setDepot (halters.names.unscratched hw) name (hw name d hd)⟩
  · rw [halters.names.isManagerHeld]
    exact isManagerHeld_of_depot (d := d) hd
  · cases h

/-- A depot that holds nothing may take a name; the one that had the name is closed. -/
theorem shifts_nameDepot (hw : Unscratched w) (name : String)
    (hmanager : w.isManagerHeld d.manager = true) (hnone : d.handle? = none) (hd : d.scratch = none) :
    Shifts w (w.nameDepot name d) ∧ Unscratched (w.nameDepot name d) := by
  -- The old depot lets go of its name first and is closed after that.
  have hset : Shifts w (w.setDepot name d) := by
    refine shifts_setDepot name hmanager fun handle h => ?_
    rw [hnone] at h
    cases h
  have hdiscard : Alters (w.setDepot name d) (w.nameDepot name d) :=
    alters_discardDepot (hw name) _
  exact ⟨hset.trans hdiscard.shifts, hdiscard.names.unscratched (unscratched_setDepot hw name hd)⟩

theorem shifts_dropDepot (hw : Unscratched w) (name : String) :
    Shifts w (w.dropDepot name) ∧ Unscratched (w.dropDepot name) := by
  have herase : Shifts w { w with depots := w.depots.erase name } :=
    .single (.tame (.dropNames id SortedMap.get?_of_get?_erase) fun _ hr => hr)
  have hdiscard : Alters { w with depots := w.depots.erase name } (w.dropDepot name) :=
    alters_discardDepot (hw name) _
  exact ⟨herase.trans hdiscard.shifts,
    hdiscard.names.unscratched fun name' d hd => hw name' d (SortedMap.get?_of_get?_erase hd)⟩

end Life

/-! ## Names of handles -/

section Handles

variable {w w' : World} {handle : Handle}

/-- What a name of a handle adds to what is held. -/
theorem isEngineHeld_nameHandle {name : String} {r : EngineRef}
    (hheld : (w.nameHandle name handle).isEngineHeld r = true) :
    w.isEngineHeld r = true ∨ r = handle.engine := by
  rcases isEngineHeld_iff.mp hheld with ⟨name', handle', hname, rfl⟩ | hmanager | hdepot
  · rw [show (w.nameHandle name handle).handleNames = w.handleNames.insert name handle from rfl,
      SortedMap.get?_insert] at hname
    split at hname
    · cases hname
      exact .inr rfl
    · exact .inl (isEngineHeld_iff.mpr (.inl ⟨name', handle', hname, rfl⟩))
  · exact .inl (isEngineHeld_iff.mpr (.inr (.inl hmanager)))
  · exact .inl (isEngineHeld_iff.mpr (.inr (.inr hdepot)))

theorem shifts_nameHandle (name : String) (hheld : w.isEngineHeld handle.engine = true) :
    Shifts w (w.nameHandle name handle) := by
  refine .single (.tame (.of_engines_eq rfl rfl fun {r} hr => ?_) fun _ hr => hr)
  rcases isEngineHeld_nameHandle hr with hold | rfl
  · exact hold
  · exact hheld

theorem shifts_dropHandle (name : String) : Shifts w (w.dropHandle name) := by
  refine .single (.tame (.of_engines_eq rfl rfl fun {r} hr => isEngineHeld_iff.mpr ?_) fun _ hr => hr)
  rcases isEngineHeld_iff.mp hr with ⟨name', handle', hname, rfl⟩ | hmanager | hdepot
  · exact .inl ⟨name', handle', SortedMap.get?_of_get?_erase hname, rfl⟩
  · exact .inr (.inl hmanager)
  · exact .inr (.inr hdepot)

/-- What a manager that is held lends may get a name. -/
theorem shifts_lendNamed (h : Booked w) (hw : Unscratched w) {ref : ManagerRef}
    (hheld : w.isManagerHeld ref = true) (name id : String) (options : Options) :
    Shifts w ((lendNamed name ref id options).exec w).2 ∧
      Unscratched ((lendNamed name ref id options).exec w).2 := by
  rcases lendNamed_cases name ref id options w with hrefused | ⟨lent, w₁, hlends, hexec⟩
  · exact ⟨hrefused.alters.shifts, hrefused.alters.names.unscratched hw⟩
  · obtain ⟨m, hm, hholds⟩ := hlends.lent.manager
    have halters := hlends.alters h.fresh
    rw [hexec]
    refine ⟨halters.shifts.trans (shifts_nameHandle name ?_), halters.names.unscratched hw⟩
    exact isEngineHeld_of_manager hm ((halters.names.isManagerHeld ref).trans hheld) hholds

theorem shifts_openNamed (hfresh : Fresh w) (hw : Unscratched w) (name path id : String)
    (options : Options) (networked : Bool) :
    Shifts w ((openNamed name path id options networked).exec w).2 ∧
      Unscratched ((openNamed name path id options networked).exec w).2 := by
  rw [exec_openNamed]
  rcases hopen : Engine.openDirectory path id options networked w.isDirectoryHeld w.disk with
    ⟨err | e, disk⟩
  · exact ⟨.single (.grow (extends_of_openDirectory_error hopen)
      (Engine.content?_of_openDirectory_error hopen)), hw⟩
  · exact ⟨.single (.openDirectory hfresh hopen rfl fun r hr => isEngineHeld_nameHandle hr), hw⟩

theorem isEngineHeld_of_name {name : String} (hname : w.handleNames.get? name = some handle) :
    w.isEngineHeld handle.engine = true :=
  isEngineHeld_iff.mpr (.inl ⟨name, handle, hname, rfl⟩)

end Handles

/-! ## Every event -/

/-- Whether an event leaves the files under the engines to the engines: no file is changed past them, and
no ready-made depot comes, whose directory would go with it. -/
def Event.isOrderly : Event → Bool
  | .addReadyMade _ _ _ _ | .writeFile _ _ _ | .flip _ _ _ | .dropEnd _ _ => false
  | _ => true

section Events

variable {w : World}

/-- Every call is a number of shifts. -/
theorem shifts_step (h : Accounted w) (hw : Unscratched w) (call : Call) :
    Shifts w (step w call) ∧ Unscratched (step w call) := by
  have hrefl : Shifts w w ∧ Unscratched w := ⟨.refl, hw⟩
  have htame {w' : World} (h : Tame w w') (hhas : ∀ r, w.Has r → w'.Has r) : Shifts w w' :=
    .single (.tame h hhas)
  have halters {w' : World} (h : Alters w w') : Shifts w w' ∧ Unscratched w' :=
    ⟨h.shifts, h.names.unscratched hw⟩
  have hstart {name : String} {d : Depot} {handle : Handle} (hd : w.depots.get? name = some d)
      (hphase : d.phase = .ready handle) : Drives w handle w :=
    ⟨.refl w, isEngineHeld_of_depot hd (Depot.handle?_eq_some_iff.mpr hphase)⟩
  have hend {handle : Handle} {w' : World} (h : Drives w handle w') : Shifts w w' ∧ Unscratched w' :=
    halters h.alters
  cases call with
  | addManager name app user base networked guarded =>
      refine ⟨htame (tame_addManager w name fun r => ?_) fun _ hr => hr, hw⟩
      cases guarded <;> rfl
  | dropManager name =>
      exact ⟨htame (.dropNames SortedMap.get?_of_get?_erase id) fun _ hr => hr, hw⟩
  | register device manager =>
      simp only [step]
      split
      · exact ⟨htame (.of_engines_eq rfl rfl id) fun _ hr => hr, hw⟩
      · exact hrefl
  | unregister device => exact ⟨htame (.of_engines_eq rfl rfl id) fun _ hr => hr, hw⟩
  | setFaults manager faults =>
      simp only [step]
      split
      · refine halters (.of_still ⟨tame_setFaults w _ faults, sameNames_modifyManager _ _ _⟩ fun r hr => ?_)
        unfold Has
        rwa [engines_modifyManager]
      · exact hrefl
  | addDepot name manager id config =>
      simp only [step]
      split
      · rename_i ref href
        exact shifts_nameDepot hw name (isManagerHeld_iff.mpr (.inl ⟨manager, href⟩)) rfl rfl
      · exact hrefl
  | dropDepot name => exact shifts_dropDepot hw name
  | start name =>
      simp only [step, onDepot]
      split
      · rename_i d hd
        exact shifts_startNamed h.booked hw hd
      · exact hrefl
  | stop name =>
      simp only [step, onDepot]
      split
      · rename_i d hd
        exact shifts_stopNamed hw hd
      · exact hrefl
  | edit name edit => exact of_edit (tracks_drives w) hstart hend hrefl name edit
  | get name key => exact of_get (tracks_drives w) hstart hend hrefl name key
  | getSummary name key => exact of_getSummary (tracks_drives w) hstart hend hrefl name key
  | getAll name front => exact of_getAll (tracks_drives w) hstart hend hrefl name front
  | sync name devices =>
      simp only [step, onDepot]
      split
      · rename_i d hd
        unfold syncDepot
        split
        · exact halters (alters_sync h _ devices .pushOnly)
        · exact hrefl
      · exact hrefl

/-- Whatever happens in an orderly way is a number of shifts. -/
theorem shifts_happen (h : Accounted w) (hw : Unscratched w) {event : Event}
    (horderly : event.isOrderly = true) :
    Shifts w (happen w event) ∧ Unscratched (happen w event) := by
  have hrefl : Shifts w w ∧ Unscratched w := ⟨.refl, hw⟩
  have halters {w' : World} (h : Alters w w') : Shifts w w' ∧ Unscratched w' :=
    ⟨h.shifts, h.names.unscratched hw⟩
  have hdrives {name : String} {handle : Handle} (hname : w.handleNames.get? name = some handle) :
      Drives w handle w := ⟨.refl w, isEngineHeld_of_name hname⟩
  have hnamed {name : String} {α : Type} {act : Handle → Action World StorageError α}
      (hact : ∀ handle, w.handleNames.get? name = some handle → Alters w ((act handle).exec w).2) :
      Shifts w (w.onHandle name act) ∧ Unscratched (w.onHandle name act) :=
    halters (of_onHandle (P := Alters w) (.refl w) hact)
  cases event with
  | call call => exact shifts_step h hw call
  | setBase manager base =>
      simp only [happen]
      split
      · exact halters (.modifyManager fun _ _ _ hr => hr)
      · exact hrefl
  | lend name manager id options =>
      simp only [happen]
      split
      · rename_i ref href
        have hheld := isManagerHeld_iff.mpr (.inl ⟨manager, href⟩)
        exact shifts_lendNamed h.booked hw hheld name id options
      · exact hrefl
  | lendStore name depot =>
      simp only [happen]
      split
      · rename_i d hd
        split
        · rename_i ref m hnamed
          have hheld := isManagerHeld_iff.mpr
            (.inl ⟨d.managerName, managerNames_of_managerNamedBy hnamed⟩)
          exact shifts_lendNamed h.booked hw hheld name d.id d.config.options
        · exact hrefl
      · exact hrefl
  | reclaim manager name =>
      simp only [happen]
      split
      · exact hnamed fun handle _ => alters_reclaim _ handle w
      · exact hrefl
  | openMemory name id options networked =>
      -- The name is all that holds the new engine.
      refine ⟨.single (.make h.booked.fresh rfl rfl rfl fun r hr => isEngineHeld_nameHandle hr), hw⟩
  | openDirectory name path id options networked =>
      exact shifts_openNamed h.booked.fresh hw name path id options networked
  | dropHandle name => exact ⟨shifts_dropHandle name, hw⟩
  | put name entries =>
      exact hnamed fun handle hname => ((tracks_drives w handle).put (hdrives hname) entries).alters
  | delete name keys =>
      exact hnamed fun handle hname => ((tracks_drives w handle).delete (hdrives hname) keys).alters
  | scan name front =>
      exact hnamed fun handle hname => ((tracks_drives w handle).scan (hdrives hname) front).alters
  | close name =>
      exact hnamed fun handle _ =>
        .of_still ⟨tame_closeEngine w handle.engine, sameNames_closeEngine w handle.engine⟩
          (has_closeEngine handle.engine)
  | sync name devices mode =>
      exact hnamed fun handle _ => alters_sync h handle devices mode
  | setCodecFaults depot faults =>
      simp only [happen]
      split
      · rename_i d hd
        exact ⟨shifts_setDepot depot (isManagerHeld_of_depot (d := d) hd) fun handle hhandle =>
          isEngineHeld_of_depot hd hhandle, unscratched_setDepot hw depot (hw depot d hd)⟩
      · exact hrefl
  | makeDirectories path =>
      obtain ⟨hext, hcontent, -⟩ := Disk.extends_makeDirectories path w.disk
      exact ⟨.single (.grow hext fun place => hcontent (logPlace place)), hw⟩
  | _ => cases horderly

end Events

end ObjectStore.World
