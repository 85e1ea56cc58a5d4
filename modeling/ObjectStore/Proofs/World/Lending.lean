import ObjectStore.Proofs.World.Answers

/-!
# What loans, returns and pushes do to a world

`LendsHandle` and `ReturnsEngine` say what a loan and a return are: all that is known of them is derived
from there. A loan is a number of moves that leave the engine with the manager, so that it is held as long
as the manager is. A return is tame. A push is a loan, a put and a return for each device, and as it puts
a whole table of objects, the tables of the devices stay tables of objects.

Main statements: `ensures_lend`, `ensures_reclaim` and `evolves_pushAll`.
-/

namespace ObjectStore

/-- Whether a handle is of the kind that a manager has lent out: an engine if the manager has no guard,
and otherwise one of its wrappers. -/
def Manager.accepts (m : Manager) (ref : ManagerRef) (handle : Handle) : Bool :=
  match m.guard, handle with
  | none, .direct _ => true
  | some guard, .wrapped serial lender engine =>
    lender == ref && guard.wrappers.contains (serial, engine)
  | _, _ => false

namespace World

open ObjectStore.Action

theorem ensures_managerOf (ref : ManagerRef) (w : World) :
    (managerOf ref).Ensures w (fun m w' => w' = w ∧ w.managers.get? ref = some m)
      fun _ w' => w' = w ∧ w.managers.get? ref = none := by
  refine Ensures.bind (P := fun w₁ w₂ => w₁ = w ∧ w₂ = w) (ensures_get ⟨rfl, rfl⟩) ?_
  rintro w₁ w₂ ⟨rfl, rfl⟩
  split
  · rename_i m hm
    exact ensures_pure ⟨rfl, hm⟩
  · rename_i hm
    exact ensures_throw ⟨rfl, hm⟩

/-! ## What a loan is -/

/-- The engine of a store that is opened: an empty one in memory, or the one that the directory of the
store gives. -/
inductive Opens (w : World) (m : Manager) (id : String) (options : Options) (e : Engine)
    (disk : Disk) : Prop where
  | memory : options.memoryOnly = true → disk = w.disk →
      e = { id, options, networked := m.networked } → Opens w m id options e disk
  | directory {base : String} : options.memoryOnly = false → m.base = some base →
      Engine.openDirectory (Manager.storeDirectory m.app m.user base id options) id options
        m.networked w.isDirectoryHeld w.disk = (.ok e, disk) → Opens w m id options e disk

/-- At most the opening of a directory was refused. -/
inductive Refused (w : World) : World → Prop where
  | same : Refused w w
  | directory {path id : String} {options : Options} {networked : Bool} {err : StorageError}
      {disk : Disk} :
      Engine.openDirectory path id options networked w.isDirectoryHeld w.disk = (.error err, disk) →
      Refused w { w with disk }

/-- Why no engine is opened for a store, and what that leaves behind. -/
inductive Unopened (w : World) (m : Manager) (id : String) (options : Options) : World → Prop where
  | encrypted : options.encrypted = true → Unopened w m id options w
  | base : options.memoryOnly = false → m.base = none → Unopened w m id options w
  | directory {base : String} {err : StorageError} {disk : Disk} :
      options.memoryOnly = false → m.base = some base →
      Engine.openDirectory (Manager.storeDirectory m.app m.user base id options) id options
        m.networked w.isDirectoryHeld w.disk = (.error err, disk) →
      Unopened w m id options { w with disk }

/-- Why a manager lends nothing, and what that leaves behind. -/
inductive Denies (w : World) (ref : ManagerRef) (id : String) (options : Options) : World → Prop where
  | unknown : w.managers.get? ref = none → Denies w ref id options w
  | name {err : StorageError} : Manager.checkId id = .error err → Denies w ref id options w
  /-- The engine on loan is not there. -/
  | lost {m : Manager} {loan : Loan} : w.managers.get? ref = some m →
      m.loans.get? id = some loan → w.engines.get? loan.engine = none → Denies w ref id options w
  /-- The store is on loan with another layout. -/
  | layout {m : Manager} {loan : Loan} {e : Engine} : w.managers.get? ref = some m →
      m.loans.get? id = some loan → w.engines.get? loan.engine = some e →
      e.options.sameLayout options = false → Denies w ref id options w
  | unopened {m : Manager} {w' : World} : w.managers.get? ref = some m →
      m.loans.get? id = none → Unopened w m id options w' → Denies w ref id options w'

/-- What has been checked by the time that a manager lends. -/
structure Permits (w : World) (ref : ManagerRef) (id : String) (options : Options) : Prop where
  name : Manager.checkId id = .ok ()
  plain : ∀ m, w.managers.get? ref = some m → m.loans.get? id = none → options.encrypted = false

/-- One loan more of the engine of a store, which is opened for the first. -/
inductive LendsEngine (w : World) (ref : ManagerRef) (id : String) (options : Options) :
    EngineRef → World → Prop where
  | again {m : Manager} {loan : Loan} {e : Engine} :
      w.managers.get? ref = some m → m.loans.get? id = some loan →
      w.engines.get? loan.engine = some e → e.options.sameLayout options = true →
      LendsEngine w ref id options loan.engine
        (w.modifyManager ref fun m =>
          { m with loans := m.loans.insert id { loan with handles := loan.handles + 1 } })
  | first {m : Manager} {e : Engine} {disk : Disk} :
      w.managers.get? ref = some m → m.loans.get? id = none → Opens w m id options e disk →
      LendsEngine w ref id options w.next
        ((addEngine { w with disk } e).2.modifyManager ref fun m =>
          { m with loans := m.loans.insert id { engine := w.next, handles := 1 } })

/-- One loan more of a store. A manager with a guard wraps the engine. -/
inductive LendsHandle (w : World) (ref : ManagerRef) (id : String) (options : Options) :
    Handle → World → Prop where
  | direct {m : Manager} {engine : EngineRef} {w' : World} :
      LendsEngine w ref id options engine w' → w'.managers.get? ref = some m → m.guard = none →
      LendsHandle w ref id options (.direct engine) w'
  | wrapped {m : Manager} {guard : Guard} {engine : EngineRef} {w' : World} :
      LendsEngine w ref id options engine w' → w'.managers.get? ref = some m →
      m.guard = some guard →
      LendsHandle w ref id options (wrap ref engine w').1 (wrap ref engine w').2

theorem ensures_openStore (m : Manager) (id : String) (options : Options) (w : World) :
    (openStore m id options).Ensures w
      (fun engine w' => engine = w.next ∧ options.encrypted = false ∧
        ∃ e disk, Opens w m id options e disk ∧ w' = (addEngine { w with disk } e).2)
      fun _ w' => Unopened w m id options w' := by
  unfold openStore
  split
  · rename_i hencrypted
    exact ensures_throw (.encrypted hencrypted)
  · rename_i hencrypted
    have hplain : options.encrypted = false := by simpa using hencrypted
    split
    · rename_i hmemory
      refine Ensures.bind (P := fun w₁ w₂ => w₁ = w ∧ w₂ = w) (ensures_get ⟨rfl, rfl⟩) ?_
      rintro w₁ w₂ ⟨rfl, rfl⟩
      refine Ensures.bind (P := fun _ w' => w' = (addEngine w₂ _).2) (ensures_set rfl) ?_
      rintro - w' rfl
      exact ensures_pure ⟨rfl, hplain, _, w₂.disk, .memory hmemory rfl rfl, rfl⟩
    · rename_i hmemory
      have hdisk : options.memoryOnly = false := by simpa using hmemory
      split
      · rename_i hbase
        exact ensures_throw (.base hdisk hbase)
      · rename_i base hbase
        refine Ensures.bind (P := fun w₁ w₂ => w₁ = w ∧ w₂ = w) (ensures_get ⟨rfl, rfl⟩) ?_
        rintro w₁ w₂ ⟨rfl, rfl⟩
        unfold openDirectory
        simp only
        -- The disk may have changed also where the opening was refused.
        generalize hopen : Engine.openDirectory _ id options m.networked w₂.isDirectoryHeld
          w₂.disk = opened
        obtain ⟨opened, disk⟩ := opened
        cases opened with
        | error err =>
            refine Ensures.bind (P := fun _ w' => w' = { w₂ with disk }) (ensures_set rfl) ?_
            rintro - w' rfl
            exact ensures_throw (.directory hdisk hbase hopen)
        | ok e =>
            refine Ensures.bind (P := fun _ w' => w' = (addEngine { w₂ with disk } e).2)
              (ensures_set rfl) ?_
            rintro - w' rfl
            exact ensures_pure ⟨rfl, hplain, e, disk, .directory hdisk hbase hopen, rfl⟩

theorem ensures_lendEngine (ref : ManagerRef) (id : String) (options : Options) (w : World) :
    (lendEngine ref id options).Ensures w
      (fun engine w' => LendsEngine w ref id options engine w' ∧ Permits w ref id options)
      fun _ w' => Denies w ref id options w' := by
  refine Ensures.bind ((ensures_managerOf ref w).weaken (fun _ _ h => h) ?_) ?_
  · rintro err w' ⟨rfl, hm⟩
    exact .unknown hm
  rintro m w' ⟨rfl, hm⟩
  refine Ensures.bind (P := fun _ w'' => Manager.checkId id = .ok () ∧ w'' = w')
    (ensures_answer (fun _ hid => ⟨hid, rfl⟩) fun _ hid => .name hid) ?_
  rintro - w'' ⟨hid, rfl⟩
  split
  · rename_i loan hloan
    refine Ensures.bind ((ensures_engineOf (.direct loan.engine) w'').weaken (fun _ _ h => h) ?_) ?_
    · rintro err w' ⟨rfl, he⟩
      exact .lost hm hloan he
    rintro e w' ⟨rfl, he⟩
    have hpermits : Permits w' ref id options := by
      refine ⟨hid, fun m' hm' hnone => ?_⟩
      rw [hm] at hm'
      cases hm'
      rw [hloan] at hnone
      cases hnone
    split
    · rename_i hlayout
      refine Ensures.bind (P := fun _ w₁ => LendsEngine w' ref id options loan.engine w₁)
        (ensures_modify (.again hm hloan he hlayout)) ?_
      intro _ w₁ hw₁
      exact ensures_pure ⟨hw₁, hpermits⟩
    · rename_i hlayout
      exact ensures_throw (.layout hm hloan he (by simpa using hlayout))
  · rename_i hloan
    refine Ensures.bind ((ensures_openStore m id options w'').weaken (fun _ _ h => h) ?_) ?_
    · intro err w' hw'
      exact .unopened hm hloan hw'
    rintro engine w' ⟨rfl, hplain, e, disk, hopens, rfl⟩
    refine Ensures.bind (P := fun _ w₁ => LendsEngine w'' ref id options w''.next w₁)
      (ensures_modify (.first hm hloan hopens)) ?_
    intro _ w₁ hw₁
    exact ensures_pure ⟨hw₁, hid, fun _ _ _ => hplain⟩

/-- A loan leaves the guard of the manager as it is. -/
theorem LendsEngine.guard_eq {w w' : World} {ref : ManagerRef} {id : String} {options : Options}
    {engine : EngineRef} (h : LendsEngine w ref id options engine w') :
    (w'.managers.get? ref).map Manager.guard = (w.managers.get? ref).map Manager.guard := by
  cases h with
  | again hm =>
      rw [get?_modifyManager, if_pos rfl, hm]
      rfl
  | first hm =>
      rw [get?_modifyManager, if_pos rfl]
      show ((w.managers.get? ref).map _).map _ = _
      rw [hm]
      rfl

/-- A manager lends the engine of a store, or says why it does not. -/
theorem ensures_lend_or_denies (ref : ManagerRef) (id : String) (options : Options) (w : World) :
    (lend ref id options).Ensures w
      (fun handle w' => LendsHandle w ref id options handle w' ∧ Permits w ref id options)
      fun _ w' => Denies w ref id options w' := by
  refine Ensures.bind ((ensures_managerOf ref w).weaken (fun _ _ h => h) ?_) ?_
  · rintro err w' ⟨rfl, hm⟩
    exact .unknown hm
  rintro m w' ⟨rfl, hm⟩
  refine Ensures.bind (ensures_lendEngine ref id options w') ?_
  rintro engine w'' ⟨hlends, hpermits⟩
  have hguards := hlends.guard_eq
  rw [hm, Option.map_some] at hguards
  obtain ⟨m', hm', hguard⟩ := Option.map_eq_some_iff.mp hguards
  split
  · rename_i hsome
    obtain ⟨guard, hg⟩ := Option.isSome_iff_exists.mp hsome
    refine Ensures.bind (P := fun w₁ w₂ => w₁ = w'' ∧ w₂ = w'') (ensures_get ⟨rfl, rfl⟩) ?_
    rintro w₁ w₂ ⟨rfl, rfl⟩
    refine Ensures.bind (P := fun _ w₃ => w₃ = (wrap ref engine w₂).2) (ensures_set rfl) ?_
    rintro - w₃ rfl
    exact ensures_pure ⟨.wrapped hlends hm' (hguard.trans hg), hpermits⟩
  · rename_i hnone
    have hg : m.guard = none := by simpa using hnone
    exact ensures_pure ⟨.direct hlends hm' (hguard.trans hg), hpermits⟩

theorem Denies.refused {w w' : World} {ref : ManagerRef} {id : String} {options : Options}
    (h : Denies w ref id options w') : Refused w w' := by
  cases h with
  | unopened _ _ hunopened =>
      cases hunopened with
      | encrypted => exact .same
      | base => exact .same
      | directory _ _ hopen => exact .directory hopen
  | _ => exact .same

/-- What a loan does, and that nothing but the opening of a directory goes before its refusal. -/
theorem ensures_lend (ref : ManagerRef) (id : String) (options : Options) (w : World) :
    (lend ref id options).Ensures w (fun handle w' => LendsHandle w ref id options handle w')
      fun _ w' => Refused w w' :=
  (ensures_lend_or_denies ref id options w).weaken (fun _ _ h => h.1) fun _ _ h => h.refused

/-! ## Loans are moves -/

section Loans

variable {w w' : World} {ref : ManagerRef} {id : String} {options : Options} {engine : EngineRef}

theorem Refused.evolves (h : Refused w w') : Evolves w w' := by
  cases h with
  | same => exact .refl w
  | directory hopen => exact ⟨.single (.refuse hopen rfl fun _ h => h), ⟨rfl, rfl, rfl⟩⟩

/-- Once an engine that was opened is held, that is a move. -/
theorem Opens.move {m : Manager} {e : Engine} {disk : Disk} (h : Opens w m id options e disk)
    (hdisk : w'.disk = disk) (hengines : w'.engines = w.engines.insert w.next e)
    (hheld : ∀ r, w'.isEngineHeld r = true → w.isEngineHeld r = true ∨ r = w.next) : Move w w' := by
  cases h with
  | memory _ hsame he =>
      subst he
      exact .make id options m.networked (hdisk.trans hsame) hengines hheld
  | directory _ _ hopen => exact .openDirectory (hopen.trans (by rw [hdisk])) hengines hheld

theorem holds_insert_loan {m : Manager} {id : String} {loan : Loan} {r : EngineRef}
    (h : Manager.holds { m with loans := m.loans.insert id loan } r = true) :
    m.holds r = true ∨ r = loan.engine := by
  rcases Manager.holds_iff.mp h with ⟨id', loan', hget, rfl⟩ | hguard
  · simp only [SortedMap.get?_insert] at hget
    split at hget
    · cases hget
      exact .inr rfl
    · exact .inl (Manager.holds_iff.mpr (.inl ⟨id', loan', hget, rfl⟩))
  · exact .inl (Manager.holds_iff.mpr (.inr hguard))

theorem holds_inserted_loan (m : Manager) (id : String) (loan : Loan) :
    Manager.holds { m with loans := m.loans.insert id loan } loan.engine = true :=
  Manager.holds_iff.mpr (.inl ⟨id, loan, by simp [SortedMap.get?_insert], rfl⟩)

/-- The world has evolved, and the manager has the engine. -/
structure Lent (w : World) (ref : ManagerRef) (engine : EngineRef) (w' : World) : Prop where
  evolves : Evolves w w'
  manager : ∃ m, w'.managers.get? ref = some m ∧ m.holds engine = true

theorem LendsEngine.lent (h : LendsEngine w ref id options engine w') : Lent w ref engine w' := by
  cases h with
  -- The store is on loan already, so that its engine is one that the manager has.
  | @again m loan e hm hloan =>
      refine ⟨.of_tame (Tame.modifyManager fun m' r hm' hr => ?_) (sameNames_modifyManager _ _ _), ?_⟩
      · rw [hm] at hm'
        cases hm'
        rcases holds_insert_loan hr with hold | rfl
        · exact hold
        · exact Manager.holds_iff.mpr (.inl ⟨id, loan, hloan, rfl⟩)
      · refine ⟨_, by rw [get?_modifyManager, if_pos rfl, hm, Option.map_some], ?_⟩
        exact holds_inserted_loan m id { loan with handles := loan.handles + 1 }
  -- The engine is new, and the manager is the only one that comes to hold it.
  | @first m e disk hm hloan hopens =>
      have hnames : SameNames w (addEngine { w with disk } e).2 := ⟨rfl, rfl, rfl⟩
      have hm' : (addEngine { w with disk } e).2.managers.get? ref = some m := hm
      refine ⟨⟨.single (hopens.move (disk_modifyManager _ _ _) (engines_modifyManager _ _ _) ?_),
        hnames.trans (sameNames_modifyManager _ _ _)⟩, ?_⟩
      · intro r hr
        rcases isEngineHeld_modifyManager hr with hold | ⟨m', hget, hheld, hholds⟩
        -- What is held does not depend on the disk and the engines.
        · exact .inl hold
        · rw [hm'] at hget
          cases hget
          rcases holds_insert_loan hholds with hold | rfl
          · exact .inl (isEngineHeld_of_manager hm hheld hold)
          · exact .inr rfl
      · refine ⟨_, by rw [get?_modifyManager, if_pos rfl, hm', Option.map_some], ?_⟩
        exact holds_inserted_loan m id { engine := w.next, handles := 1 }

theorem holds_wrapped {m : Manager} {guard : Option Guard} {r : EngineRef}
    (hguard : ∀ g serial, guard = some g → (serial, r) ∈ g.wrappers → m.holds r = true)
    (h : Manager.holds { m with guard } r = true) : m.holds r = true := by
  rcases Manager.holds_iff.mp h with hloan | ⟨g, serial, hg, hmem⟩
  · exact Manager.holds_iff.mpr (.inl hloan)
  · exact hguard g serial hg hmem

/-- A wrapper for an engine that the manager has on loan holds nothing new. -/
theorem Lent.wrap (h : Lent w ref engine w') : Lent w ref engine (wrap ref engine w').2 := by
  obtain ⟨m, hm, hholds⟩ := h.manager
  refine ⟨h.evolves.trans ?_, ?_⟩
  · have hnext : SameNames w' { w' with next := w'.next + 1 } := ⟨rfl, rfl, rfl⟩
    have htame : Tame w' { w' with next := w'.next + 1 } := .of_engines_eq rfl rfl fun h => h
    refine .of_tame (htame.trans ?_) (hnext.trans (sameNames_modifyManager _ _ _))
    refine Tame.modifyManager fun m' r hm' hr => holds_wrapped (fun g serial hg hmem => ?_) hr
    -- The list of wrappers grows by one, and that is for the engine on loan.
    rw [show w'.managers.get? ref = some m' from hm'] at hm
    cases hm
    obtain ⟨g', hg', rfl⟩ := Option.map_eq_some_iff.mp hg
    rcases List.mem_append.mp hmem with hmem | hmem
    · exact Manager.holds_iff.mpr (.inr ⟨g', serial, hg', hmem⟩)
    · cases List.mem_singleton.mp hmem
      exact hholds
  · refine ⟨_, by rw [World.wrap, get?_modifyManager, if_pos rfl, hm, Option.map_some], ?_⟩
    rcases Manager.holds_iff.mp hholds with hloan | ⟨g, serial, hg, hmem⟩
    · exact Manager.holds_iff.mpr (.inl hloan)
    · refine Manager.holds_iff.mpr (.inr ⟨_, serial, by rw [hg, Option.map_some], ?_⟩)
      exact List.mem_append_left _ hmem

/-- A loan leaves the engine behind the handle with the manager. -/
theorem LendsHandle.lent {handle : Handle} (h : LendsHandle w ref id options handle w') :
    Lent w ref handle.engine w' := by
  cases h with
  | direct hlends => exact hlends.lent
  | wrapped hlends => exact hlends.lent.wrap

end Loans

/-! ## What a return is -/

/-- One loan less of the engine of a store, which is closed with the last. -/
inductive ReturnsEngine (w : World) (ref : ManagerRef) (id : String) (engine : EngineRef) :
    World → Prop where
  | fewer {m : Manager} {loan : Loan} :
      w.managers.get? ref = some m → m.loans.get? id = some loan → loan.engine = engine →
      1 < loan.handles →
      ReturnsEngine w ref id engine
        (w.modifyManager ref fun m =>
          { m with loans := m.loans.insert id { loan with handles := loan.handles - 1 } })
  | last {m : Manager} {loan : Loan} :
      w.managers.get? ref = some m → m.loans.get? id = some loan → loan.engine = engine →
      ¬ 1 < loan.handles →
      ReturnsEngine w ref id engine
        (closeEngine (w.modifyManager ref fun m => { m with loans := m.loans.erase id }) engine)

/-- At most a wrapper is taken off the list of its manager. -/
inductive Unwraps (w : World) (ref : ManagerRef) : World → Prop where
  | same : Unwraps w ref w
  | erase {m : Manager} {guard : Guard} (wrapper : Nat × EngineRef) :
      w.managers.get? ref = some m → m.guard = some guard →
      Unwraps w ref (w.modifyManager ref fun m =>
        { m with guard := some { guard with wrappers := guard.wrappers.erase wrapper } })

/-- The engine is not the one that the manager has on loan under the id. -/
def NotLent (w : World) (ref : ManagerRef) (id : String) (engine : EngineRef) : Prop :=
  ∀ m loan, w.managers.get? ref = some m → m.loans.get? id = some loan → loan.engine ≠ engine

theorem ensures_reclaimEngine (ref : ManagerRef) (id : String) (engine : EngineRef) (w : World) :
    (reclaimEngine ref id engine).Ensures w (fun _ w' => ReturnsEngine w ref id engine w')
      fun _ w' => w' = w ∧ NotLent w ref id engine := by
  refine Ensures.bind ((ensures_managerOf ref w).weaken (fun _ _ h => h) ?_) ?_
  · rintro err w' ⟨rfl, hnone⟩
    refine ⟨rfl, fun m loan hm _ => ?_⟩
    rw [hnone] at hm
    cases hm
  rintro m w' ⟨rfl, hm⟩
  have hrefused (h : ∀ loan, m.loans.get? id = some loan → loan.engine ≠ engine) :
      NotLent w' ref id engine := by
    intro m' loan hm' hloan
    rw [hm] at hm'
    cases hm'
    exact h loan hloan
  split
  · rename_i hnone
    refine ensures_throw ⟨rfl, hrefused fun loan hloan => ?_⟩
    rw [hnone] at hloan
    cases hloan
  · rename_i loan hloan
    split
    · rename_i hengine
      split
      · rename_i hmore
        exact ensures_modify (.fewer hm hloan hengine hmore)
      · rename_i hlast
        exact ensures_modify (.last hm hloan hengine hlast)
    · rename_i hengine
      refine ensures_throw ⟨rfl, hrefused fun loan' hloan' => ?_⟩
      rw [hloan] at hloan'
      cases hloan'
      exact hengine

/-- The manager takes the handle back. -/
def Accepts (w : World) (ref : ManagerRef) (handle : Handle) : Prop :=
  ∃ m, w.managers.get? ref = some m ∧ m.accepts ref handle = true

/-- What a return does. A manager refuses what it has lent only if the engine is not the one that is on
loan. -/
theorem ensures_reclaim (ref : ManagerRef) (handle : Handle) (w : World) :
    (reclaim ref handle).Ensures w
      (fun _ w' => ∃ e w₁, w.engines.get? handle.engine = some e ∧ Unwraps w ref w₁ ∧
        ReturnsEngine w₁ ref e.id handle.engine w')
      fun _ w' => Unwraps w ref w' ∧
        (Accepts w ref handle → ∀ e, w.engines.get? handle.engine = some e →
          NotLent w' ref e.id handle.engine) := by
  refine Ensures.bind ((ensures_managerOf ref w).weaken (fun _ _ h => h) ?_) ?_
  · rintro err w' ⟨rfl, hnone⟩
    refine ⟨.same, fun _ e _ m loan hm _ => ?_⟩
    rw [hnone] at hm
    cases hm
  rintro m w' ⟨rfl, hm⟩
  refine Ensures.bind ((ensures_engineOf handle w').weaken (fun _ _ h => h) ?_) ?_
  · rintro err w'' ⟨rfl, hnone⟩
    refine ⟨.same, fun _ e he => ?_⟩
    rw [hnone] at he
    cases he
  rintro e w'' ⟨rfl, he⟩
  have haccepts (h : Accepts w'' ref handle) : m.accepts ref handle = true := by
    obtain ⟨m', hm', h⟩ := h
    rw [hm] at hm'
    cases hm'
    exact h
  -- Once the handle is taken, the books decide.
  have hreclaim {w₁ : World} (hunwraps : Unwraps w'' ref w₁) :
      (reclaimEngine ref e.id handle.engine).Ensures w₁
        (fun _ w' => ∃ e w₁, w''.engines.get? handle.engine = some e ∧ Unwraps w'' ref w₁ ∧
          ReturnsEngine w₁ ref e.id handle.engine w')
        fun _ w' => Unwraps w'' ref w' ∧
          (Accepts w'' ref handle → ∀ e, w''.engines.get? handle.engine = some e →
            NotLent w' ref e.id handle.engine) := by
    refine (ensures_reclaimEngine ref e.id handle.engine w₁).weaken
      (fun _ w' h => ⟨e, w₁, he, hunwraps, h⟩) ?_
    rintro err w' ⟨rfl, hrefused⟩
    refine ⟨hunwraps, fun _ e' he' => ?_⟩
    rw [he] at he'
    cases he'
    exact hrefused
  split
  · exact hreclaim .same
  · rename_i guard serial lender engine hguard
    split
    -- The wrapper goes first, whatever becomes of the loan after that.
    · refine Ensures.bind (P := fun _ w₁ => Unwraps w'' ref w₁)
        (ensures_modify (.erase (serial, engine) hm hguard)) ?_
      intro _ w₁ hw₁
      exact hreclaim hw₁
    · rename_i hno
      refine ensures_throw ⟨.same, fun h => ?_⟩
      have haccepted := haccepts h
      simp only [Manager.accepts, hguard, Bool.and_eq_true, beq_iff_eq] at haccepted
      exact absurd haccepted hno
  · rename_i hdirect hwrapped
    refine ensures_throw ⟨.same, fun h => ?_⟩
    have haccepted := haccepts h
    unfold Manager.accepts at haccepted
    split at haccepted
    · rename_i hguard
      exact absurd rfl (hdirect _ hguard)
    · rename_i hguard
      exact absurd rfl (hwrapped _ _ _ _ hguard)
    · cases haccepted

/-! ## Returns are tame -/

section Returns

variable {w w' : World} {ref : ManagerRef} {id : String} {engine : EngineRef}

theorem tame_closeEngine (w : World) (engine : EngineRef) : Tame w (closeEngine w engine) := by
  unfold closeEngine
  split
  · rename_i e he
    refine ⟨rfl, fun {r e'} hr => ?_, id⟩
    simp only [SortedMap.get?_insert] at hr
    split at hr
    · rename_i heq
      cases hr
      exact ⟨e, by rw [heq, he], rfl, rfl⟩
    · exact ⟨e', hr, rfl, rfl⟩
  · exact .refl w

theorem sameNames_closeEngine (w : World) (engine : EngineRef) :
    SameNames w (closeEngine w engine) := by
  unfold closeEngine
  split
  · exact ⟨rfl, rfl, rfl⟩
  · exact .refl w

/-- A step that is tame and keeps all names. -/
def Still (w w' : World) : Prop :=
  Tame w w' ∧ SameNames w w'

theorem Still.trans {w w' w'' : World} (h : Still w w') (h' : Still w' w'') : Still w w'' :=
  ⟨h.1.trans h'.1, h.2.trans h'.2⟩

theorem still_refl (w : World) : Still w w := ⟨.refl w, .refl w⟩

theorem ReturnsEngine.still (h : ReturnsEngine w ref id engine w') : Still w w' := by
  cases h with
  -- One loan less, of the same engine.
  | @fewer m loan hm hloan =>
      refine ⟨Tame.modifyManager fun m' r hm' hr => ?_, sameNames_modifyManager _ _ _⟩
      rw [hm] at hm'
      cases hm'
      rcases holds_insert_loan hr with hold | rfl
      · exact hold
      · exact Manager.holds_iff.mpr (.inl ⟨id, loan, hloan, rfl⟩)
  -- The last loan goes, and the engine is closed without a change to its table.
  | last =>
      refine Still.trans ⟨Tame.modifyManager fun m' r _ hr => ?_, sameNames_modifyManager _ _ _⟩
        ⟨tame_closeEngine _ _, sameNames_closeEngine _ _⟩
      rcases Manager.holds_iff.mp hr with ⟨id', loan', hget, rfl⟩ | hguard
      · simp only [SortedMap.get?_erase] at hget
        split at hget
        · cases hget
        · exact Manager.holds_iff.mpr (.inl ⟨id', loan', hget, rfl⟩)
      · exact Manager.holds_iff.mpr (.inr hguard)

theorem Unwraps.still (h : Unwraps w ref w') : Still w w' := by
  cases h with
  | same => exact still_refl w
  | @erase m guard wrapper hm hguard =>
      refine ⟨Tame.modifyManager fun m' r hm' hr => ?_, sameNames_modifyManager _ _ _⟩
      rw [hm] at hm'
      cases hm'
      refine holds_wrapped (fun g serial hg hmem => ?_) hr
      cases hg
      exact Manager.holds_iff.mpr (.inr ⟨guard, serial, hguard, List.mem_of_mem_erase hmem⟩)

/-- A return is tame, whether the manager takes the handle or not. -/
theorem still_reclaim (ref : ManagerRef) (handle : Handle) (w : World) :
    Still w ((reclaim ref handle).exec w).2 := by
  refine Ensures.exec_snd ((ensures_reclaim ref handle w).weaken ?_ ?_)
  · intro _ w' h
    obtain ⟨e, w₁, -, hunwraps, hreturns⟩ := h
    exact hunwraps.still.trans hreturns.still
  · intro _ w' h
    exact h.1.still

end Returns

/-! ## Pushes -/

theorem Still.evolves {w w' : World} (h : Still w w') : Evolves w w' :=
  .of_tame h.1 h.2

/-- A delivery is denied, or it is a loan, a put and a return, whatever becomes of the put. -/
theorem exec_deliver_cases (id : String) (options : Options) (es : List Entry) (ref : ManagerRef)
    (w : World) :
    (∃ err w', Denies w ref id options w' ∧ (deliver id options es ref).exec w = (.error err, w')) ∨
      ∃ handle w₁ written w₂ released w₃, LendsHandle w ref id options handle w₁ ∧
        Permits w ref id options ∧ (put handle es).exec w₁ = (written, w₂) ∧
        (reclaim ref handle).exec w₂ = (released, w₃) ∧
        (deliver id options es ref).exec w = (written.bind fun _ => released, w₃) := by
  have hlend := ensures_lend_or_denies ref id options w
  unfold Ensures at hlend
  unfold deliver
  rw [exec_bind]
  rcases hexec : (lend ref id options).exec w with ⟨err | handle, w₁⟩
  · rw [hexec] at hlend
    exact .inl ⟨err, w₁, hlend, rfl⟩
  · rw [hexec] at hlend
    rcases hput : (put handle es).exec w₁ with ⟨written, w₂⟩
    rcases hreclaim : (reclaim ref handle).exec w₂ with ⟨released, w₃⟩
    refine .inr ⟨handle, w₁, written, w₂, released, w₃, hlend.1, hlend.2, hput, hreclaim, ?_⟩
    simp only [exec_bind, exec_always, run_outcome, exec_answer, hput, hreclaim]
    cases written <;> rfl

/-- A delivery of a whole table of objects to a manager that is held. -/
theorem evolves_deliver {w : World} (hw : Consistent w) {manager : ManagerRef}
    (hheld : w.isManagerHeld manager = true) (id : String) (options : Options) {t : Table}
    (ht : t.Represented) :
    Evolves w ((deliver id options (t.scan []) manager).exec w).2 := by
  rcases exec_deliver_cases id options (t.scan []) manager w with
    ⟨err, w', hdenies, hexec⟩ | ⟨handle, w₁, written, w₂, released, w₃, hlends, -, hput, hreclaim, hexec⟩
  · rw [hexec]
    exact hdenies.refused.evolves
  · rw [hexec]
    have hlent := hlends.lent
    obtain ⟨m, hm, hholds⟩ := hlent.manager
    -- The manager is held, so that what it has lent can be written to.
    have hserves : Serves w handle w₁ :=
      ⟨hw.moves hlent.evolves.moves, hlent.evolves,
        isEngineHeld_of_manager hm ((hlent.evolves.names.isManagerHeld manager).trans hheld) hholds⟩
    -- The whole table goes over, and it brings the group key of each of its members along.
    have hsafe : ((content handle w₁).applyPut (t.scan [])).Represented := by
      rw [Table.scan_nil]
      exact (hserves.consistent.represented_content handle).overlay ht
    have hputs : Evolves w ((put handle (t.scan [])).exec w₁).2 := by
      refine Ensures.exec_snd (((lawful_keyValue w handle).put _ hserves hsafe).weaken ?_ ?_)
      · intro _ w' h
        exact h.1.evolves
      · intro _ w' h
        exact h.1.evolves
    have hreturn := still_reclaim manager handle w₂
    rw [hput] at hputs
    rw [hreclaim] at hreturn
    exact hputs.trans hreturn.evolves

theorem isManagerHeld_of_resolve {w : World} {device : String} {manager : ManagerRef}
    (h : w.resolve device = some manager) : w.isManagerHeld manager = true := by
  unfold resolve at h
  exact (Option.filter_eq_some_iff.mp h).2

/-- What a delivery comes to. -/
def statusOfDelivery : Except StorageError Unit → SyncStatus
  | .ok () => .done
  | .error err => .failed err.message

/-- A push to one device is a delivery to its manager, if the device can be reached. -/
theorem run_pushTo (networked : Bool) (id : String) (options : Options) (es : List Entry)
    (device : String) (w : World) :
    (pushTo networked id options es device).run w =
      match if networked then w.resolve device else none with
      | none => (.offline, w)
      | some manager =>
        (statusOfDelivery ((deliver id options es manager).exec w).1,
          ((deliver id options es manager).exec w).2) := by
  unfold pushTo
  rw [StateT.run_bind, StateT.run_get]
  simp only [pure_bind]
  generalize (if networked = true then w.resolve device else none) = manager?
  cases manager? with
  | none => rfl
  | some manager =>
      simp only [StateT.run_bind, run_outcome]
      rcases (deliver id options es manager).exec w with ⟨err | _, w'⟩
      · rfl
      · rfl

theorem evolves_pushTo {w : World} (hw : Consistent w) (networked : Bool) (id : String)
    (options : Options) {t : Table} (ht : t.Represented) (device : String) :
    Evolves w ((pushTo networked id options (t.scan []) device).run w).2 := by
  rw [run_pushTo]
  split
  · exact .refl w
  · rename_i manager hmanager
    have hresolve : w.resolve device = some manager := by
      split at hmanager
      · exact hmanager
      · cases hmanager
    exact evolves_deliver hw (isManagerHeld_of_resolve hresolve) id options ht

/-- A push to any devices is a number of moves. -/
theorem evolves_pushAll {w : World} (hw : Consistent w) (networked : Bool) (id : String)
    (options : Options) {t : Table} (ht : t.Represented) (devices : List String)
    (outcome : SyncOutcome) :
    Evolves w ((pushAll networked id options (t.scan []) devices outcome).run w).2 := by
  -- Each device starts in the world that the one before has left, and that is consistent again.
  induction devices generalizing w outcome with
  | nil => exact .refl w
  | cons device devices ih =>
      have hpush := evolves_pushTo hw networked id options ht device
      rw [pushAll, StateT.run_bind]
      exact hpush.trans (ih (hw.moves hpush.moves) _)

theorem evolves_sync {w : World} (hw : Consistent w) (handle : Handle) (devices : List String)
    (mode : SyncMode) : Evolves w ((sync handle devices mode).exec w).2 := by
  have hcounted := setsFaults_counted handle .sync w
  rcases exec_sync_cases handle devices mode w with
    ⟨err, -, hexec⟩ | ⟨-, e, outcome, w', he, hpush, hexec⟩
  · rw [hexec]
    exact hcounted.evolves
  -- The table that is pushed is that of this moment, and it is a table of objects like all others.
  · have hpushed := evolves_pushAll (hw.tame hcounted.tame) e.networked e.id e.options
      (hw.represented he) devices ∅
    rw [hpush] at hpushed
    rw [hexec]
    exact hcounted.evolves.trans hpushed

end World

end ObjectStore
