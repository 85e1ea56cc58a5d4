import ObjectStore.Proofs.World.Deliveries
import ObjectStore.Proofs.World.Events

/-!
# What leaves the loans of one manager alone

Of everything that can happen to a world only a part has to do with what one manager has on loan: that it
is asked for a loan, that something is given back to it, and that an engine is closed past it. Whatever
else happens leaves its books and its guard as they were and what it has on loan open. That goes for pushes
too, also for those that come to its own stores: a delivery gives back what it was lent.

Main statement: `aside_happen`.
-/

namespace ObjectStore.World

open ObjectStore.Action

/-! ## What a manager takes back -/

/-- Whether a manager has a guard, if there is such a manager. -/
def guarded? (w : World) (ref : ManagerRef) : Option Bool :=
  (w.managers.get? ref).map fun m => m.guard.isSome

section Accepts

variable {w w' : World} {ref : ManagerRef}

theorem accepts_direct_iff {engine : EngineRef} :
    Accepts w ref (.direct engine) ↔ w.guarded? ref = some false := by
  unfold Accepts guarded?
  cases w.managers.get? ref with
  | none => simp
  | some m => cases hguard : m.guard <;> simp [Manager.accepts, hguard]

theorem accepts_wrapped_iff {serial : Nat} {lender : ManagerRef} {engine : EngineRef} :
    Accepts w ref (.wrapped serial lender engine) ↔
      lender = ref ∧ (serial, engine) ∈ w.wrappers ref := by
  unfold Accepts wrappers
  cases w.managers.get? ref with
  | none => simp
  | some m => cases hguard : m.guard <;> simp [Manager.accepts, hguard]

/-- What a manager takes back depends on whether it has a guard, and on the wrappers that are lent out. -/
theorem accepts_congr (hguarded : w'.guarded? ref = w.guarded? ref)
    (hwrappers : ∀ wrapper, wrapper ∈ w'.wrappers ref ↔ wrapper ∈ w.wrappers ref) (handle : Handle) :
    Accepts w' ref handle ↔ Accepts w ref handle := by
  cases handle with
  | direct engine => rw [accepts_direct_iff, accepts_direct_iff, hguarded]
  | wrapped serial lender engine => rw [accepts_wrapped_iff, accepts_wrapped_iff, hwrappers]

/-- A guard is there if it has switches. -/
theorem guarded?_eq_switches? (w : World) (ref : ManagerRef) :
    w.guarded? ref = (w.switches? ref).map Option.isSome := by
  unfold guarded? switches?
  cases w.managers.get? ref with
  | none => rfl
  | some m => simp

theorem guarded?_of_managers (h : w'.managers.get? ref = w.managers.get? ref) :
    w'.guarded? ref = w.guarded? ref := by
  unfold guarded?
  rw [h]

theorem wrappers_of_managers (h : w'.managers.get? ref = w.managers.get? ref) :
    w'.wrappers ref = w.wrappers ref := by
  unfold wrappers
  rw [h]

end Accepts

/-! ## The relation -/

/-- The engine is on loan from the manager. -/
def IsLent (w : World) (ref : ManagerRef) (engine : EngineRef) : Prop :=
  ∃ id loan, w.loan? ref id = some loan ∧ loan.engine = engine

/-- The loans of a manager are as they were. -/
structure Aside (ref : ManagerRef) (w w' : World) : Prop where
  loans : ∀ id, w'.loan? ref id = w.loan? ref id
  guarded : w'.guarded? ref = w.guarded? ref
  wrappers : ∀ wrapper, wrapper ∈ w'.wrappers ref ↔ wrapper ∈ w.wrappers ref
  /-- Every engine is still the store that it was. One that is closed stays closed, and one that is on
  loan is not closed. -/
  engines : ∀ {r e}, w.engines.get? r = some e →
    ∃ e', w'.engines.get? r = some e' ∧ e'.id = e.id ∧ e'.options = e.options ∧
      (e.isClosed = true → e'.isClosed = true) ∧ (w.IsLent ref r → e'.isClosed = e.isClosed)
  next : w.next ≤ w'.next

namespace Aside

variable {ref : ManagerRef} {w w' w'' : World}

theorem refl (ref : ManagerRef) (w : World) : Aside ref w w :=
  ⟨fun _ => rfl, rfl, fun _ => .rfl, fun he => ⟨_, he, rfl, rfl, id, fun _ => rfl⟩, Nat.le_refl _⟩

theorem isLent_iff (h : Aside ref w w') (r : EngineRef) : w'.IsLent ref r ↔ w.IsLent ref r := by
  unfold IsLent
  simp only [h.loans]

theorem accepts_iff (h : Aside ref w w') (handle : Handle) :
    Accepts w' ref handle ↔ Accepts w ref handle :=
  accepts_congr h.guarded h.wrappers handle

theorem trans (h : Aside ref w w') (h' : Aside ref w' w'') : Aside ref w w'' where
  loans id := (h'.loans id).trans (h.loans id)
  guarded := h'.guarded.trans h.guarded
  wrappers wrapper := (h'.wrappers wrapper).trans (h.wrappers wrapper)
  engines he := by
    obtain ⟨e', he', hid, hoptions, hclosed, hopen⟩ := h.engines he
    obtain ⟨e'', he'', hid', hoptions', hclosed', hopen'⟩ := h'.engines he'
    refine ⟨e'', he'', hid'.trans hid, hoptions'.trans hoptions, hclosed' ∘ hclosed, fun hlent => ?_⟩
    exact (hopen' ((h.isLent_iff _).mpr hlent)).trans (hopen hlent)
  next := Nat.le_trans h.next h'.next

/-- Steps that leave all books alone. -/
theorem of_steady (h : Steady w w') (hguarded : w'.guarded? ref = w.guarded? ref)
    (hwrappers : ∀ wrapper, wrapper ∈ w'.wrappers ref ↔ wrapper ∈ w.wrappers ref)
    (hnext : w.next ≤ w'.next) : Aside ref w w' where
  loans := h.loans ref
  guarded := hguarded
  wrappers := hwrappers
  engines he := by
    obtain ⟨e', he', hid, hoptions, hclosed⟩ := h.engines he
    exact ⟨e', he', hid, hoptions, hclosed.trans, fun _ => hclosed⟩
  next := hnext

/-- Steps that leave all books alone, and this manager altogether. -/
theorem of_managers (h : Steady w w') (hmanagers : w'.managers.get? ref = w.managers.get? ref)
    (hnext : w.next ≤ w'.next) : Aside ref w w' :=
  .of_steady h (guarded?_of_managers hmanagers) (fun _ => by rw [wrappers_of_managers hmanagers]) hnext

/-- Names, devices and the disk do not matter. -/
theorem of_eq (hnext : w'.next = w.next) (hengines : w'.engines = w.engines)
    (hmanagers : w'.managers = w.managers) : Aside ref w w' :=
  .of_managers (.of_eq hnext hengines hmanagers) (by rw [hmanagers]) (Nat.le_of_eq hnext.symm)

/-- A manager may be changed apart from its loans and its wrappers. -/
theorem modifyManager {ref' : ManagerRef} {f : Manager → Manager} (hloans : ∀ m, (f m).loans = m.loans)
    (hguard : ∀ m, w.managers.get? ref' = some m → (f m).guard.map Guard.wrappers =
      m.guard.map Guard.wrappers) : Aside ref w (w.modifyManager ref' f) := by
  refine .of_steady (steady_modifyManager hloans) ?_ (fun wrapper => ?_)
    (Nat.le_of_eq (next_modifyManager w ref' f).symm)
  · unfold guarded?
    rw [get?_modifyManager]
    split
    · rename_i heq
      rw [heq]
      cases hm : w.managers.get? ref' with
      | none => rfl
      | some m =>
          have hsome := congrArg Option.isSome (hguard m hm)
          rw [Option.isSome_map, Option.isSome_map] at hsome
          simp [hsome]
    · rfl
  · rw [wrappers_modifyManager]
    split
    · rename_i heq
      rw [heq, World.wrappers]
      cases hm : w.managers.get? ref' with
      | none => rfl
      | some m => simp [hguard m hm]
    · rfl

end Aside

/-! ## Calls -/

section Calls

variable {ref : ManagerRef} {w w' : World}

theorem SetsFaults.aside (h : SetsFaults w w') (ref : ManagerRef) : Aside ref w w' := by
  cases h with
  | refl => exact .refl ref w
  | set faults hm hguard =>
      refine .modifyManager (fun _ => rfl) fun m' hm' => ?_
      rw [hm] at hm'
      cases hm'
      rw [hguard]
      rfl

theorem aside_of_write {r : EngineRef} {batch : Batch} {e e' : Engine} {disk : Disk}
    (he : w.engines.get? r = some e) (hwrite : e.write batch w.disk = .ok (e', disk)) :
    Aside ref w { w with engines := w.engines.insert r e', disk } :=
  .of_managers (steady_of_write he hwrite) rfl (Nat.le_refl _)

/-- Calls through a handle, whoever has lent it. -/
theorem keptByCalls_aside (ref : ManagerRef) (w : World) : KeptByCalls (Aside ref w) where
  setsFaults h hfaults := h.trans (hfaults.aside ref)
  written h he hwrite := h.trans (aside_of_write he hwrite)

end Calls

/-! ## New managers and engines, and engines that lose their directory -/

section Making

variable {ref : ManagerRef} {w : World}

theorem aside_addEngine (hfresh : Fresh w) (e : Engine) : Aside ref w (w.addEngine e).2 :=
  .of_managers (steady_addEngine hfresh e) rfl (Nat.le_succ _)

theorem aside_removeDirectory (removed : List String) : Aside ref w (w.removeDirectory removed) :=
  .of_managers (steady_removeDirectory w removed) rfl (Nat.le_refl _)

/-- A manager that is there is not the next one. -/
theorem ne_next_of_guarded? (hfresh : Fresh w) (href : (w.guarded? ref).isSome) : ref ≠ w.next := by
  rintro rfl
  simp [guarded?, (hfresh w.next (Nat.le_refl _)).2] at href

theorem aside_addManager (hfresh : Fresh w) (hnew : ref ≠ w.next) {m : Manager}
    (hm : m.loans = ∅) : Aside ref w (w.addManager m).2 := by
  have hsteady := steady_addManager hfresh hm ""
  refine .of_managers (hsteady.trans (.of_eq rfl rfl rfl)) ?_ (Nat.le_succ _)
  show (w.managers.insert w.next m).get? ref = _
  rw [SortedMap.get?_insert, if_neg hnew]

end Making

/-! ## Other managers -/

section Others

variable {ref ref' : ManagerRef} {id : String} {options : Options} {w w' : World}

theorem Refused.aside (h : Refused w w') (ref : ManagerRef) : Aside ref w w' := by
  obtain ⟨disk, -, rfl⟩ := h.exists_extends
  exact .of_eq rfl rfl rfl

theorem LendsEngine.next_le {engine : EngineRef} (h : LendsEngine w ref id options engine w') :
    w.next ≤ w'.next := by
  cases h with
  | again => exact Nat.le_of_eq (next_modifyManager _ _ _).symm
  | first =>
      rw [next_modifyManager]
      exact Nat.le_succ _

theorem LendsHandle.next_le {handle : Handle} (h : LendsHandle w ref id options handle w') :
    w.next ≤ w'.next := by
  cases h with
  | direct hlends => exact hlends.next_le
  | wrapped hlends =>
      rw [wrap, next_modifyManager]
      exact Nat.le_succ_of_le hlends.next_le

/-- A loan keeps guards on managers. -/
theorem LendsHandle.guarded?_eq {handle : Handle} (h : LendsHandle w ref' id options handle w')
    (ref : ManagerRef) : w'.guarded? ref = w.guarded? ref := by
  rw [guarded?_eq_switches?, guarded?_eq_switches?, h.guards.1]

/-- What another manager lends is none of this manager's business. -/
theorem LendsHandle.aside {handle : Handle} (h : LendsHandle w ref' id options handle w')
    (hfresh : Fresh w) (hne : ref ≠ ref') : Aside ref w w' where
  loans id' := h.lends.loans fun heq => hne heq.1
  guarded := h.guarded?_eq ref
  wrappers wrapper := by rw [h.guards.2, if_neg hne, List.append_nil]
  engines he := ⟨_, h.lends.get?_engines hfresh he, rfl, rfl, fun h => h, fun _ => rfl⟩
  next := h.next_le

/-- An engine that a loan has put on loan is new. -/
theorem Lends.isLent_cases {engine r : EngineRef} (h : Lends w ref' id options engine w')
    (hfresh : Fresh w) (hlent : w'.IsLent ref r) : w.IsLent ref r ∨ w.engines.get? r = none := by
  obtain ⟨id', loan, hloan, rfl⟩ := hlent
  rcases h.loan_cases hloan with ⟨⟨rfl, -⟩, hengine, -⟩ | hold
  · cases h.source with
    | again hloan' hengine' => exact .inl ⟨id, _, hloan', hengine'.trans hengine.symm⟩
    | first _ hnext =>
        rw [hengine, hnext]
        exact .inr (hfresh w.next (Nat.le_refl _)).1
  · exact .inl ⟨id', loan, hold, rfl⟩

/-- A return puts nothing on loan. -/
theorem Returns.isLent {engine r : EngineRef} (h : Returns w ref' id engine w')
    (hlent : w'.IsLent ref r) : w.IsLent ref r := by
  obtain ⟨id', loan, hloan, rfl⟩ := hlent
  obtain ⟨old, hold, hengine⟩ := h.exists_loan hloan
  exact ⟨id', old, hold, hengine⟩

theorem aside_lend (h : Booked w) (hne : ref ≠ ref') (id : String) (options : Options) :
    (lend ref' id options).Ensures w (fun _ w' => Booked w' ∧ Aside ref w w')
      fun _ w' => Booked w' ∧ Aside ref w w' :=
  (ensures_lend ref' id options w).weaken
    (fun _ _ hlends => ⟨h.lends hlends.lends, hlends.aside h.fresh hne⟩)
    fun _ _ hrefused => ⟨h.steady hrefused.steady.1, hrefused.aside ref⟩

theorem next_closeEngine (w : World) (engine : EngineRef) : (closeEngine w engine).next = w.next := by
  unfold closeEngine
  split <;> rfl

/-- An engine that is closed past this manager is not one that it has on loan. -/
theorem aside_closeEngine {engine : EngineRef} (hnot : ¬ w.IsLent ref engine) :
    Aside ref w (closeEngine w engine) := by
  obtain ⟨-, -, hmanagers, -⟩ := ways_closeEngine w engine
  have hmanager : (closeEngine w engine).managers.get? ref = w.managers.get? ref := by rw [hmanagers]
  constructor
  case loans =>
    intro id
    unfold loan?
    rw [hmanager]
  case guarded => exact guarded?_of_managers hmanager
  case wrappers => exact fun _ => by rw [wrappers_of_managers hmanager]
  case engines =>
    intro r e he
    have hclosed := engines_closeEngine engine he
    split at hclosed
    · rename_i heq
      subst heq
      exact ⟨e.close, hclosed, rfl, rfl, fun _ => rfl, fun hlent => absurd hlent hnot⟩
    · exact ⟨e, hclosed, rfl, rfl, id, fun _ => rfl⟩
  case next => exact Nat.le_of_eq (next_closeEngine w engine).symm

theorem Unwraps.managers_of_ne (h : Unwraps w ref' w') (hne : ref ≠ ref') :
    w'.managers.get? ref = w.managers.get? ref := by
  cases h with
  | same => rfl
  | erase => rw [get?_modifyManager, if_neg hne]

theorem ReturnsEngine.managers_of_ne {engine : EngineRef} (h : ReturnsEngine w ref' id engine w')
    (hne : ref ≠ ref') : w'.managers.get? ref = w.managers.get? ref := by
  cases h with
  | fewer => rw [get?_modifyManager, if_neg hne]
  | last => rw [(ways_closeEngine _ engine).2.2.1, get?_modifyManager, if_neg hne]

theorem Unwraps.next_eq (h : Unwraps w ref' w') : w'.next = w.next := by
  cases h with
  | same => rfl
  | erase => exact next_modifyManager _ _ _

theorem ReturnsEngine.next_eq {engine : EngineRef} (h : ReturnsEngine w ref' id engine w') :
    w'.next = w.next := by
  cases h with
  | fewer => exact next_modifyManager _ _ _
  | last => rw [next_closeEngine, next_modifyManager]

theorem next_unwrapped (ref : ManagerRef) (handle : Handle) (w : World) :
    (unwrapped ref handle w).next = w.next := by
  cases handle with
  | direct engine => rfl
  | wrapped serial lender engine => exact next_modifyManager _ _ _

theorem Unwraps.aside (h : Unwraps w ref' w') (hne : ref ≠ ref') : Aside ref w w' :=
  .of_managers h.sameBooks.steady (h.managers_of_ne hne) (Nat.le_of_eq h.next_eq.symm)

theorem ReturnsEngine.aside {engine : EngineRef} (h : ReturnsEngine w ref' id engine w')
    (hbooked : Booked w) (hne : ref ≠ ref') : Aside ref w w' := by
  have hreturns := h.returns
  have hmanagers := h.managers_of_ne hne
  constructor
  case loans => exact fun id' => hreturns.loans fun heq => hne heq.1
  case guarded => exact guarded?_of_managers hmanagers
  case wrappers => exact fun _ => by rw [wrappers_of_managers hmanagers]
  case engines =>
    intro r e he
    rcases hreturns.engines he with hsame | ⟨heq, -, hclosed⟩
    · exact ⟨e, hsame, rfl, rfl, fun h => h, fun _ => rfl⟩
    · -- What is closed was on loan from the other manager, and from no one else.
      refine ⟨e.close, hclosed, rfl, rfl, fun _ => rfl, fun hlent => ?_⟩
      obtain ⟨id', loan', hloan', hengine'⟩ := hlent
      obtain ⟨loan, hloan, hengine, -⟩ := hreturns.loan
      exact absurd (hbooked.apart hloan' hloan (hengine'.trans (heq.trans hengine.symm))) hne
  case next => exact Nat.le_of_eq h.next_eq.symm

/-- What is given back to another manager is none of this manager's business. -/
theorem aside_reclaim (hbooked : Booked w) (hne : ref ≠ ref') (handle : Handle) :
    Aside ref w ((reclaim ref' handle).exec w).2 := by
  refine Ensures.exec_snd ((ensures_reclaim ref' handle w).weaken ?_ ?_)
  · intro _ w' h
    obtain ⟨e, w₁, -, hunwraps, hreturns⟩ := h
    exact (hunwraps.aside hne).trans
      (hreturns.aside (hbooked.steady hunwraps.sameBooks.steady) hne)
  · intro _ w' h
    exact h.1.aside hne

end Others

/-! ## Pushes -/

section Pushes

variable {ref : ManagerRef} {w w' : World}

/-- A delivery, to whomever it goes, gives back what it was lent. -/
theorem Delivers.aside {ref' : ManagerRef} {id : String} {options : Options} {s : Table}
    {written : Except StorageError Unit} (h : Delivers w ref' id options (s.scan []) written w')
    (haccounted : Accounted w) (ref : ManagerRef) : Aside ref w w' := by
  have hround := h.round haccounted
  cases h with
  | denied hdenies => exact hdenies.refused.aside ref
  | @lent handle w₁ _ hlends hpermits hreturned =>
      have hput := putsInto_put (haccounted.lends hlends).1 handle s
      obtain ⟨hswitches, hwrappers⟩ := hlends.guards_of_round hput.guards hreturned
      constructor
      case loans => exact hround.loans ref
      case guarded => rw [guarded?_eq_switches?, guarded?_eq_switches?, hswitches]
      case wrappers => exact hwrappers ref
      case engines =>
        intro r e he
        obtain ⟨e', he', hsame, -⟩ := hround.engines he
        exact ⟨e', he', hsame.id, hsame.options, hsame.isClosed.trans, fun _ => hsame.isClosed⟩
      case next =>
        rw [hreturned.next_eq, next_unwrapped]
        exact Nat.le_trans hlends.next_le ((keptByCalls_aside ref w₁).put (.refl ref w₁) handle (s.scan [])).next

theorem aside_deliver (h : Accounted w) (ref : ManagerRef) (id : String) (options : Options)
    (s : Table) (ref' : ManagerRef) :
    Aside ref w ((deliver id options (s.scan []) ref').exec w).2 :=
  (delivers_deliver h ref' id options s).aside h ref

theorem aside_pushAll (h : Accounted w) (ref : ManagerRef) (networked : Bool) (id : String)
    (options : Options) (s : Table) (devices : List String) (outcome : SyncOutcome) :
    Aside ref w ((pushAll networked id options (s.scan []) devices outcome).run w).2 := by
  induction devices generalizing w outcome with
  | nil => exact .refl ref w
  | cons device devices ih =>
      rw [pushAll, StateT.run_bind, run_pushTo]
      split
      · exact ih h _
      · rename_i ref' _
        exact (aside_deliver h ref id options s ref').trans
          (ih (accounted_deliver h id options _ ref') _)

theorem aside_sync (h : Accounted w) (ref : ManagerRef) (handle : Handle) (devices : List String)
    (mode : SyncMode) : Aside ref w ((sync handle devices mode).exec w).2 := by
  have hfaults := setsFaults_counted handle .sync w
  rcases exec_sync_cases handle devices mode w with
    ⟨err, -, hexec⟩ | ⟨-, e, outcome, w', -, hpush, hexec⟩
  · rw [hexec]
    exact hfaults.aside ref
  · have hpushed := aside_pushAll (h.setsFaults hfaults) ref e.networked e.id e.options e.table devices
      ∅
    rw [hpush] at hpushed
    rw [hexec]
    exact (hfaults.aside ref).trans hpushed

end Pushes

/-! ## Depots -/

section Depots

variable {ref : ManagerRef} {w : World} {d : Depot} {name : String}

theorem aside_stop (h : Booked w)
    (hne : ∀ handle, d.handle? = some handle → ref ≠ d.manager) :
    Aside ref w ((stop d).run w).2 := by
  unfold stop
  cases hphase : d.phase with
  | uninitialized => exact .refl ref w
  | closed => exact .refl ref w
  | ready handle => exact aside_reclaim h (hne handle (by simp [Depot.handle?, hphase])) handle

theorem aside_start (h : Booked w) (hne : d.handle? = none → ref ≠ d.manager) :
    (start d).Ensures w (fun _ w' => Booked w' ∧ Aside ref w w')
      fun _ w' => Booked w' ∧ Aside ref w w' := by
  unfold start
  split
  · exact ensures_pure ⟨h, .refl ref w⟩
  · rename_i hphase
    have hnone := Depot.handle?_eq_none hphase
    have hbase : Aside ref w (w.modifyManager d.manager fun m =>
        { m with base := some d.config.base }) :=
      .modifyManager (fun _ => rfl) fun _ _ => rfl
    refine Ensures.bind (P := fun _ w' => Booked w' ∧ Aside ref w w')
      (ensures_modify ⟨h.steady (steady_modifyManager fun _ => rfl), hbase⟩) ?_
    intro _ w₁ h₁
    obtain ⟨hbooked, haside⟩ := h₁
    have hlend := aside_lend hbooked (hne hnone) d.id d.config.options
    refine Ensures.bind (P := fun _ w' => Booked w' ∧ Aside ref w w')
      (ensures_mapError (hlend.weaken ?_ ?_)) ?_
    · exact fun _ _ h => ⟨h.1, haside.trans h.2⟩
    · exact fun _ _ h => ⟨h.1, haside.trans h.2⟩
    · intro handle w₂ h₂
      exact ensures_pure h₂

theorem sameNames_lend (ref : ManagerRef) (id : String) (options : Options) (w : World) :
    (lend ref id options).Ensures w (fun _ w' => SameNames w w') fun _ w' => SameNames w w' :=
  (ensures_lend ref id options w).weaken (fun _ _ h => h.lends.ways.names) fun _ _ h => h.steady.2

/-- Names stay when a depot is opened; it gets its own afterwards. -/
theorem sameNames_start (d : Depot) (w : World) :
    (start d).Ensures w (fun _ w' => SameNames w w') fun _ w' => SameNames w w' := by
  unfold start
  split
  · exact ensures_pure (.refl w)
  · refine Ensures.bind (P := fun _ w' => SameNames w w')
      (ensures_modify (sameNames_modifyManager _ _ _)) ?_
    intro _ w₁ h₁
    refine Ensures.bind (ensures_mapError ((sameNames_lend _ _ _ w₁).weaken
      (fun _ _ h => h₁.trans h) fun _ _ h => h₁.trans h)) ?_
    intro handle w₂ h₂
    exact ensures_pure h₂

theorem aside_setDepot (name : String) (d : Depot) : Aside ref w (w.setDepot name d) :=
  .of_eq rfl rfl rfl

theorem aside_startNamed (h : Booked w) (hne : d.handle? = none → ref ≠ d.manager) :
    Aside ref w ((startNamed name d).exec w).2 := by
  refine Ensures.exec_snd (P := Aside ref w) ?_
  refine Ensures.bind ((aside_start h hne).weaken (fun _ _ h => h.2) fun _ _ h => h.2) ?_
  intro d' w' h'
  exact ensures_modify (h'.trans (aside_setDepot name d'))

theorem aside_stopNamed (h : Booked w) (hne : ∀ handle, d.handle? = some handle → ref ≠ d.manager) :
    Aside ref w ((stopNamed name d).run w).2 := by
  have hrun : ((stopNamed name d).run w).2 =
      ((stop d).run w).2.setDepot name ((stop d).run w).1 := rfl
  rw [hrun]
  exact (aside_stop h hne).trans (aside_setDepot name _)

theorem aside_discardDepot {old : Option Depot} (h : Booked w)
    (hne : ∀ d handle, old = some d → d.handle? = some handle → ref ≠ d.manager) :
    Aside ref w (discardDepot old w) := by
  unfold discardDepot
  split
  · rename_i d
    have hstop := aside_stop h (hne d · rfl)
    simp only
    split
    · exact hstop.trans (aside_removeDirectory _)
    · exact hstop
  · exact .refl ref w

theorem aside_nameDepot (h : Booked w)
    (hne : ∀ d handle, w.depots.get? name = some d → d.handle? = some handle → ref ≠ d.manager)
    (d : Depot) : Aside ref w (w.nameDepot name d) :=
  (aside_setDepot name d).trans (aside_discardDepot (h.steady (.of_eq rfl rfl rfl)) hne)

theorem aside_dropDepot (h : Booked w)
    (hne : ∀ d handle, w.depots.get? name = some d → d.handle? = some handle → ref ≠ d.manager) :
    Aside ref w (w.dropDepot name) := by
  have hdropped : Aside ref w { w with depots := w.depots.erase name } := .of_eq rfl rfl rfl
  exact hdropped.trans (aside_discardDepot (h.steady (.of_eq rfl rfl rfl)) hne)

/-- A depot of another manager may be opened before it gets its name. -/
theorem aside_nameStarted (h : Booked w) (hother : ref ≠ d.manager)
    (hne : ∀ d handle, w.depots.get? name = some d → d.handle? = some handle → ref ≠ d.manager)
    (managerName : String) (manager : ManagerRef) :
    Aside ref w ((((start d).exec w).2.nameManager managerName manager).nameDepot name
      (((start d).exec w).1.toOption.getD d)) := by
  have hstart := (aside_start h fun _ => hother).and (sameNames_start d w)
  obtain ⟨⟨hbooked, haside⟩, hnames⟩ := Ensures.exec_snd
    (P := fun w' => (Booked w' ∧ Aside ref w w') ∧ SameNames w w') hstart
  have hnamed : Aside ref ((start d).exec w).2 (((start d).exec w).2.nameManager managerName manager) :=
    .of_eq rfl rfl rfl
  have hbooked' : Booked (((start d).exec w).2.nameManager managerName manager) :=
    hbooked.steady (.of_eq rfl rfl rfl)
  refine haside.trans (hnamed.trans (aside_nameDepot hbooked' (fun d' handle hd' => ?_) _))
  refine hne d' handle ?_
  rw [← hnames.depots]
  exact hd'

/-- A ready-made depot has a manager of its own, which is new. -/
theorem aside_addReadyMade (h : Booked w) (hnew : ref ≠ w.next)
    (hne : ∀ d handle, w.depots.get? name = some d → d.handle? = some handle → ref ≠ d.manager)
    (managerName : String) (kind : ReadyMade) (scratch : String) :
    Aside ref w (w.addReadyMade managerName name kind scratch) := by
  have hadded {m : Manager} (hm : m.loans = ∅) : Booked (w.addManager m).2 :=
    h.steady ((steady_addManager h.fresh hm "").trans (.of_eq rfl rfl rfl))
  unfold addReadyMade
  simp only
  exact (aside_addManager h.fresh hnew rfl).trans (aside_nameStarted (hadded rfl) hnew hne _ _)

end Depots

/-! ## Every event -/

/-- Nobody takes a manager's loans or gives them back, and nobody closes what it has on loan past it. A
depot of the manager may be there, but it is not opened, and while it is ready neither closed nor
dropped. -/
def Spares (w : World) (ref : ManagerRef) : Event → Prop
  | .call (.addDepot name _ _ _) | .call (.dropDepot name) | .call (.stop name)
  | .addReadyMade _ name _ _ =>
    ∀ d handle, w.depots.get? name = some d → d.handle? = some handle → ref ≠ d.manager
  | .call (.start name) => ∀ d, w.depots.get? name = some d → d.handle? = none → ref ≠ d.manager
  | .lend _ manager _ _ | .reclaim manager _ => w.managerNames.get? manager ≠ some ref
  | .lendStore _ name =>
    ∀ d, w.depots.get? name = some d → w.managerNames.get? d.managerName ≠ some ref
  | .close name => ∀ handle, w.handleNames.get? name = some handle → ¬ w.IsLent ref handle.engine
  | _ => True

section Events

variable {ref : ManagerRef} {w : World}

theorem aside_step (h : Accounted w) (hnew : ref ≠ w.next) {call : Call}
    (hspares : w.Spares ref (.call call)) : Aside ref w (step w call) := by
  have hcalls := keptByCalls_aside ref w
  have hrefl : Aside ref w w := .refl ref w
  cases call with
  | addManager name app user base networked guarded =>
      have hadded := aside_addManager (w := w) h.booked.fresh hnew
        (m := { app, user, base, networked, guard := if guarded then some {} else none }) rfl
      exact hadded.trans (.of_eq rfl rfl rfl)
  | dropManager name => exact .of_eq rfl rfl rfl
  | register device manager =>
      simp only [step]
      split
      · exact .of_eq rfl rfl rfl
      · exact hrefl
  | unregister device => exact .of_eq rfl rfl rfl
  | setFaults manager faults =>
      simp only [step]
      split
      · refine .modifyManager (fun _ => rfl) fun m _ => ?_
        cases m.guard <;> rfl
      · exact hrefl
  | addDepot name manager id config =>
      simp only [step]
      split
      · exact aside_nameDepot h.booked hspares _
      · exact hrefl
  | dropDepot name => exact aside_dropDepot h.booked hspares
  | start name =>
      simp only [step, onDepot]
      split
      · rename_i d hd
        exact aside_startNamed h.booked (hspares d hd)
      · exact hrefl
  | stop name =>
      simp only [step, onDepot]
      split
      · rename_i d hd
        exact aside_stopNamed h.booked fun handle => hspares d handle hd
      · exact hrefl
  | edit name edit => exact hcalls.edit hrefl name edit
  | get name key => exact hcalls.get hrefl name key
  | getSummary name key => exact hcalls.getSummary hrefl name key
  | getAll name front => exact hcalls.getAll hrefl name front
  | sync name devices =>
      simp only [step, onDepot]
      split
      · rename_i d hd
        unfold syncDepot
        split
        · rename_i handle _
          exact aside_sync h ref handle devices .pushOnly
        · exact hrefl
      · exact hrefl

theorem managerNames_of_managerNamedBy {d : Depot} {m : Manager}
    (h : w.managerNamedBy d = some (ref, m)) : w.managerNames.get? d.managerName = some ref := by
  obtain ⟨ref', href', hm⟩ := Option.bind_eq_some_iff.mp h
  obtain ⟨m', -, heq⟩ := Option.bind_eq_some_iff.mp hm
  cases heq
  exact href'

theorem aside_lendNamed {ref' : ManagerRef} (h : Booked w) (hne : ref ≠ ref') (handle id : String)
    (options : Options) : Aside ref w ((lendNamed handle ref' id options).exec w).2 := by
  refine Ensures.exec_snd (P := Aside ref w) ?_
  refine Ensures.bind ((aside_lend h hne id options).weaken (fun _ _ h => h.2) fun _ _ h => h.2) ?_
  intro lent w' h'
  exact ensures_modify (h'.trans (.of_eq rfl rfl rfl))

theorem aside_openNamed (h : Accounted w) (handle path id : String) (options : Options)
    (networked : Bool) : Aside ref w ((openNamed handle path id options networked).exec w).2 := by
  rw [exec_openNamed]
  rcases Engine.openDirectory path id options networked w.isDirectoryHeld w.disk with
    ⟨err | e, disk⟩
  · exact .of_eq rfl rfl rfl
  · have hdisk : Aside ref w { w with disk } := .of_eq rfl rfl rfl
    have hfresh : Fresh { w with disk } := h.booked.fresh
    exact (hdisk.trans (aside_addEngine hfresh e)).trans (.of_eq rfl rfl rfl)

/-- Whatever spares a manager leaves its loans as they were. -/
theorem aside_happen (h : Accounted w) (hnew : ref ≠ w.next) {event : Event}
    (hspares : w.Spares ref event) : Aside ref w (happen w event) := by
  have hrefl : Aside ref w w := .refl ref w
  have hcalls := keptByCalls_aside ref w
  cases event with
  | call call => exact aside_step h hnew hspares
  | setBase manager base =>
      simp only [happen]
      split
      · exact .modifyManager (fun _ => rfl) fun _ _ => rfl
      · exact hrefl
  | lend handle manager id options =>
      simp only [happen]
      split
      · rename_i ref' href'
        refine aside_lendNamed h.booked ?_ handle id options
        rintro rfl
        exact hspares href'
      · exact hrefl
  | lendStore handle depot =>
      simp only [happen]
      split
      · rename_i d hd
        split
        · rename_i ref' m hnamed
          refine aside_lendNamed h.booked ?_ handle d.id d.config.options
          rintro rfl
          exact hspares d hd (managerNames_of_managerNamedBy hnamed)
        · exact hrefl
      · exact hrefl
  | reclaim manager handle =>
      simp only [happen]
      split
      · rename_i ref' href'
        refine of_onHandle hrefl fun handle _ => aside_reclaim h.booked ?_ handle
        rintro rfl
        exact hspares href'
      · exact hrefl
  | openMemory handle id options networked =>
      exact (aside_addEngine h.booked.fresh _).trans (.of_eq rfl rfl rfl)
  | openDirectory handle path id options networked =>
      exact aside_openNamed h handle path id options networked
  | dropHandle handle => exact .of_eq rfl rfl rfl
  | put handle entries => exact of_onHandle hrefl fun handle _ => hcalls.put hrefl handle entries
  | delete handle keys => exact of_onHandle hrefl fun handle _ => hcalls.delete hrefl handle keys
  | scan handle front => exact of_onHandle hrefl fun handle _ => hcalls.scan hrefl handle front
  | close handle =>
      exact of_onHandle hrefl fun handle hname => aside_closeEngine (hspares handle hname)
  | sync handle devices mode =>
      exact of_onHandle hrefl fun handle _ => aside_sync h ref handle devices mode
  | setCodecFaults depot faults =>
      simp only [happen]
      split
      · exact aside_setDepot depot _
      · exact hrefl
  | addReadyMade manager depot kind scratch =>
      exact aside_addReadyMade h.booked hnew hspares manager kind scratch
  | writeFile path content append => exact .of_eq rfl rfl rfl
  | makeDirectories path => exact .of_eq rfl rfl rfl
  | flip path position mask => exact .of_eq rfl rfl rfl
  | dropEnd path count => exact .of_eq rfl rfl rfl

end Events

end ObjectStore.World
