import ObjectStore.Proofs.Engine.Opening
import ObjectStore.Proofs.World.Audit
import ObjectStore.Proofs.World.Guards

/-!
# Worlds that are accounted for

Nothing goes astray in a world: the books of its managers add up, whatever a name, a wrapper or a depot
stands for is an engine that is there, and an engine on disk has the file of its log. That holds
whatever the disk and the tables hold, and no call through a handle, no loan, no return and no push
changes it.

Main statements: `Accounted.lends`, `Accounted.returns` and `accounted_sync`.
-/

namespace ObjectStore.World

open ObjectStore.Action Engine

/-! ## The invariant -/

/-- The engine of a reference is there. -/
def Has (w : World) (r : EngineRef) : Prop :=
  ∃ e, w.engines.get? r = some e

/-- What a depot holds is there, and a directory that goes with it is not the place of a log. -/
structure Placed (w : World) (d : Depot) : Prop where
  handle : ∀ handle, d.handle? = some handle → w.Has handle.engine
  scratch : ∀ place, d.scratch = some place → ∀ directory, place ≠ logPlace directory

/-- Nothing goes astray. -/
structure Accounted (w : World) : Prop where
  booked : Booked w
  handles : ∀ {name handle}, w.handleNames.get? name = some handle → w.Has handle.engine
  wrappers : ∀ {ref serial r}, (serial, r) ∈ w.wrappers ref → w.Has r
  depots : ∀ {name d}, w.depots.get? name = some d → Placed w d
  logged : ∀ {r e place}, w.engines.get? r = some e → e.directory? = some place →
    w.disk.content? (logPlace place) ≠ none

theorem Placed.mono {w w' : World} {d : Depot} (h : Placed w d) (hhas : ∀ r, w.Has r → w'.Has r) :
    Placed w' d :=
  ⟨fun handle hhandle => hhas _ (h.handle handle hhandle), h.scratch⟩

theorem Steady.has {w w' : World} (h : Steady w w') (r : EngineRef) (hr : w.Has r) : w'.Has r := by
  obtain ⟨e, he⟩ := hr
  obtain ⟨e', he', -⟩ := h.engines he
  exact ⟨e', he'⟩

theorem Returns.has {w w' : World} {ref : ManagerRef} {id : String} {engine : EngineRef}
    (h : Returns w ref id engine w') (r : EngineRef) (hr : w.Has r) : w'.Has r := by
  obtain ⟨e, he⟩ := hr
  obtain ⟨e', he', -⟩ := h.exists_engine he
  exact ⟨e', he'⟩

/-- To close an engine takes nothing away. -/
theorem exists_closeEngine {w : World} (engine : EngineRef) {r : EngineRef} {e : Engine}
    (he : w.engines.get? r = some e) :
    ∃ e', (closeEngine w engine).engines.get? r = some e' ∧ e'.id = e.id := by
  have hclosed := engines_closeEngine engine he
  split at hclosed
  · exact ⟨e.close, hclosed, rfl⟩
  · exact ⟨e, hclosed, rfl⟩

theorem has_closeEngine {w : World} (engine r : EngineRef) (hr : w.Has r) :
    (closeEngine w engine).Has r := by
  obtain ⟨e, he⟩ := hr
  obtain ⟨e', he', -⟩ := exists_closeEngine engine he
  exact ⟨e', he'⟩

namespace Accounted

variable {w w' : World}

/-- What is held is there. -/
theorem has_of_held (h : Accounted w) {r : EngineRef} (hheld : w.isEngineHeld r = true) : w.Has r := by
  rcases isEngineHeld_iff_books.mp hheld with
    ⟨name, handle, hname, rfl⟩ | ⟨ref, -, ⟨id, loan, hloan, rfl⟩ | ⟨serial, hmem⟩⟩ |
      ⟨name, d, handle, hd, hhandle, rfl⟩
  · exact h.handles hname
  · obtain ⟨-, e, he, -⟩ := h.booked.lent hloan
    exact ⟨e, he⟩
  · exact h.wrappers hmem
  · exact (h.depots hd).handle handle hhandle

/-! ## Steps under the same names -/

/-- Under the same names the engines stay there, and what was wrapped is one of them. -/
theorem of_names (h : Accounted w) (hbooked : Booked w') (hnames : SameNames w w')
    (hhas : ∀ r, w.Has r → w'.Has r)
    (hwrappers : ∀ {ref serial r}, (serial, r) ∈ w'.wrappers ref →
      (serial, r) ∈ w.wrappers ref ∨ w'.Has r)
    (hlogged : ∀ {r e place}, w'.engines.get? r = some e → e.directory? = some place →
      w'.disk.content? (logPlace place) ≠ none) : Accounted w' where
  booked := hbooked
  handles hname := by
    rw [hnames.handleNames] at hname
    exact hhas _ (h.handles hname)
  wrappers hmem := by
    rcases hwrappers hmem with hold | hnew
    · exact hhas _ (h.wrappers hold)
    · exact hnew
  depots hd := by
    rw [hnames.depots] at hd
    exact (h.depots hd).mono hhas
  logged := hlogged

/-- A manager may be changed as long as its loans stay and it wraps no more than before. -/
theorem modifyManager (h : Accounted w) {ref : ManagerRef} {f : Manager → Manager}
    (hloans : ∀ m, (f m).loans = m.loans)
    (hwrappers : ∀ m guard, w.managers.get? ref = some m → (f m).guard = some guard →
      ∃ guard', m.guard = some guard' ∧ guard.wrappers ⊆ guard'.wrappers) :
    Accounted (w.modifyManager ref f) := by
  have hsteady : Steady w (w.modifyManager ref f) := steady_modifyManager hloans
  refine h.of_names (h.booked.steady hsteady) (sameNames_modifyManager w ref f) hsteady.has ?_ ?_
  · intro ref' serial r hmem
    rw [wrappers_modifyManager] at hmem
    split at hmem
    · rename_i heq
      left
      cases hm : w.managers.get? ref with
      | none => simp [hm] at hmem
      | some m =>
          cases hguard : (f m).guard with
          | none => simp [hm, hguard] at hmem
          | some guard =>
              obtain ⟨guard', hguard', hsubset⟩ := hwrappers m guard hm hguard
              have hold : (serial, r) ∈ guard'.wrappers := hsubset (by simpa [hm, hguard] using hmem)
              simpa [World.wrappers, heq, hm, hguard'] using hold
    · exact .inl hmem
  · intro r e place he hplace
    rw [engines_modifyManager] at he
    rw [disk_modifyManager]
    exact h.logged he hplace

/-- Files may come to a disk and may be written to. -/
theorem disk (h : Accounted w) {disk : Disk}
    (hfiles : ∀ {p}, disk.content? p = none → w.disk.content? p = none) :
    Accounted { w with disk } := by
  have hsteady : Steady w { w with disk } := .of_eq rfl rfl rfl
  refine h.of_names (h.booked.steady hsteady) ⟨rfl, rfl, rfl⟩ hsteady.has .inl ?_
  intro r e place he hplace hnone
  exact h.logged he hplace (hfiles hnone)

/-- An engine may apply a batch. -/
theorem write (h : Accounted w) {r : EngineRef} {batch : Batch} {e e' : Engine} {disk : Disk}
    (he : w.engines.get? r = some e) (hwrite : e.write batch w.disk = .ok (e', disk)) :
    Accounted { w with engines := w.engines.insert r e', disk } := by
  have hsteady := steady_of_write he hwrite
  have hgrows : w.disk.Grows true disk := grows_of_write (fun place hplace => h.logged he hplace) hwrite
  obtain ⟨-, -, hdirectory, -⟩ := table_of_write hwrite
  refine h.of_names (h.booked.steady hsteady) ⟨rfl, rfl, rfl⟩ hsteady.has .inl ?_
  intro r' e₁ place he₁ hplace hnone
  have hget := SortedMap.get?_insert w.engines r e' r'
  rw [hget] at he₁
  -- The engine that was written to has the directory that it had.
  split at he₁
  · cases he₁
    exact h.logged he (hdirectory.symm.trans hplace) (hgrows.files hnone)
  · exact h.logged he₁ hplace (hgrows.files hnone)

end Accounted

/-! ## Loans and returns -/

section Lending

variable {w w' : World} {ref : ManagerRef} {id : String} {options : Options}

theorem Opens.grows {m : Manager} {e : Engine} {disk : Disk} (h : Opens w m id options e disk) :
    w.disk.Grows options.createIfMissing disk := by
  cases h with
  | memory _ hdisk =>
      rw [hdisk]
      exact .refl _ w.disk
  | @directory base _ _ hopen =>
      have hgrows := grows_openDirectory (Manager.storeDirectory m.app m.user base id options) id
        options m.networked w.isDirectoryHeld w.disk
      rwa [hopen] at hgrows

/-- An engine that was opened on disk has the file of its log. -/
theorem Opens.logged {m : Manager} {e : Engine} {disk : Disk} (h : Opens w m id options e disk)
    {place : List String} (hplace : e.directory? = some place) :
    disk.content? (logPlace place) ≠ none := by
  cases h with
  | memory _ _ he =>
      rw [he] at hplace
      cases hplace
  | directory _ _ hopen =>
      obtain ⟨batches, bs, hpersists⟩ := (opened_of_openDirectory hopen).persists
      rw [hpersists.directory?] at hplace
      cases hplace
      rw [hpersists.log]
      simp

theorem Lends.grows {engine : EngineRef} (h : Lends w ref id options engine w') :
    w.disk.Grows options.createIfMissing w'.disk := by
  cases h.source with
  | again _ _ _ _ _ hdisk =>
      rw [hdisk]
      exact .refl _ w.disk
  | first _ _ _ hopens => exact hopens.grows

theorem Refused.grows (h : Refused w w') :
    ∃ disk, w' = { w with disk } ∧ ∀ {p}, disk.content? p = none → w.disk.content? p = none := by
  obtain ⟨disk, hext, hw'⟩ := h.exists_extends
  exact ⟨disk, hw', hext.grows.files⟩

namespace Accounted

/-- A loan leaves the engine behind the handle there. -/
theorem lends {handle : Handle} (h : Accounted w) (hlends : LendsHandle w ref id options handle w') :
    Accounted w' ∧ w'.Has handle.engine := by
  have hbooks := hlends.lends
  obtain ⟨e, he, -⟩ := h.booked.engine_of_lends hbooks
  have hhas (r : EngineRef) (hr : w.Has r) : w'.Has r := by
    obtain ⟨e, he⟩ := hr
    exact ⟨e, hbooks.get?_engines h.booked.fresh he⟩
  refine ⟨h.of_names (h.booked.lends hbooks) hbooks.ways.names hhas ?_ ?_, e, he⟩
  · intro ref' serial r hmem
    rw [hlends.guards.2] at hmem
    -- The one wrapper that may be new is the handle itself.
    rcases List.mem_append.mp hmem with hold | hnew
    · exact .inl hold
    · right
      split at hnew
      · cases handle with
        | direct engine => cases hnew
        | wrapped serial' lender engine =>
            cases List.mem_singleton.mp hnew
            exact ⟨e, he⟩
      · cases hnew
  · intro r e' place he' hplace hnone
    have hfiles : w.disk.content? (logPlace place) = none := hbooks.grows.files hnone
    cases hbooks.source with
    | again _ _ _ _ hengines =>
        rw [hengines] at he'
        exact h.logged he' hplace hfiles
    | first _ _ _ hopens hengines =>
        rw [hengines, SortedMap.get?_insert] at he'
        split at he'
        · cases he'
          exact hopens.logged hplace hnone
        · exact h.logged he' hplace hfiles

/-- Engines may be closed. -/
theorem of_still (h : Accounted w) (hbooked : Booked w') (hstill : Still w w')
    (hhas : ∀ r, w.Has r → w'.Has r) (hguards : SameGuards w w') : Accounted w' := by
  obtain ⟨htame, hnames⟩ := hstill
  refine h.of_names hbooked hnames hhas (fun hmem => .inl (by rwa [hguards.wrappers] at hmem)) ?_
  intro r e' place he' hplace
  obtain ⟨e, he, -, hbacking⟩ := htame.engines he'
  rw [htame.disk]
  refine h.logged he ?_
  rw [← hplace]
  simp only [directory?, hbacking]

theorem closeEngine (h : Accounted w) (engine : EngineRef) : Accounted (World.closeEngine w engine) := by
  obtain ⟨-, -, hmanagers, hfresh⟩ := ways_closeEngine w engine
  have hloans (ref' : ManagerRef) (id' : String) :
      (World.closeEngine w engine).loan? ref' id' = w.loan? ref' id' := by
    unfold loan?
    rw [hmanagers]
  have hbooked : Booked (World.closeEngine w engine) := by
    constructor
    case fresh => exact hfresh h.booked.fresh
    case lent =>
      intro ref' id' loan hloan
      rw [hloans] at hloan
      obtain ⟨hpos, e, he, hid⟩ := h.booked.lent hloan
      obtain ⟨e', he', hid'⟩ := exists_closeEngine engine he
      exact ⟨hpos, e', he', hid'.trans hid⟩
    case apart =>
      intro ref₁ ref₂ id₁ id₂ loan₁ loan₂ hloan₁ hloan₂
      rw [hloans] at hloan₁ hloan₂
      exact h.booked.apart hloan₁ hloan₂
  exact h.of_still hbooked ⟨tame_closeEngine w engine, sameNames_closeEngine w engine⟩
    (has_closeEngine engine) (.of_managers_eq hmanagers)

theorem returns {engine : EngineRef} (h : Accounted w)
    (hreturns : ReturnsEngine w ref id engine w') : Accounted w' :=
  h.of_still (h.booked.returns hreturns.returns) hreturns.still hreturns.returns.has
    hreturns.sameGuards

theorem unwraps (h : Accounted w) (hunwraps : Unwraps w ref w') : Accounted w' := by
  cases hunwraps with
  | same => exact h
  | @erase m guard wrapper hm hguard =>
      refine h.modifyManager (fun _ => rfl) fun m' guard' hm' hguard' => ?_
      rw [hm] at hm'
      cases hm'
      cases hguard'
      exact ⟨guard, hguard, List.erase_subset⟩

/-- A manager may take a handle back or refuse it. -/
theorem reclaim (h : Accounted w) (ref : ManagerRef) (handle : Handle) :
    Accounted ((World.reclaim ref handle).exec w).2 := by
  refine Ensures.exec_snd ((ensures_reclaim ref handle w).weaken ?_ ?_)
  · intro _ w' hreturned
    obtain ⟨e, w₁, -, hunwraps, hreturns⟩ := hreturned
    exact (h.unwraps hunwraps).returns hreturns
  · intro _ w' hrefused
    exact h.unwraps hrefused.1

theorem refused (h : Accounted w) (hrefused : Refused w w') : Accounted w' := by
  obtain ⟨disk, rfl, hfiles⟩ := hrefused.grows
  exact h.disk hfiles

theorem setsFaults (h : Accounted w) (hfaults : SetsFaults w w') : Accounted w' := by
  cases hfaults with
  | refl => exact h
  | @set ref' m guard faults hm hguard =>
      refine h.modifyManager (fun _ => rfl) fun m' guard' hm' hguard' => ?_
      rw [hm] at hm'
      cases hm'
      cases hguard'
      exact ⟨guard, hguard, fun _ hmem => hmem⟩

end Accounted

/-- What a manager lends is there. -/
theorem ensures_lend_accounted (h : Accounted w) (ref : ManagerRef) (id : String) (options : Options) :
    (lend ref id options).Ensures w (fun handle w' => Accounted w' ∧ w'.Has handle.engine)
      fun _ w' => Accounted w' :=
  (ensures_lend ref id options w).weaken (fun _ _ hlends => h.lends hlends)
    fun _ _ hrefused => h.refused hrefused

end Lending

/-! ## Calls and pushes -/

/-- Calls through a handle take no engine away. -/
theorem keptByCalls_accounted : KeptByCalls Accounted where
  setsFaults h hfaults := h.setsFaults hfaults
  written h he hwrite := h.write he hwrite

section Pushes

variable {w : World}

theorem accounted_deliver (h : Accounted w) (id : String) (options : Options) (es : List Entry)
    (ref : ManagerRef) : Accounted ((deliver id options es ref).exec w).2 := by
  rcases exec_deliver_cases id options es ref w with
    ⟨err, w', hdenies, hexec⟩ | ⟨handle, w₁, written, w₂, released, w₃, hlends, -, hput, hreclaim, hexec⟩
  · rw [hexec]
    exact h.refused hdenies.refused
  · have hputs := keptByCalls_accounted.put (h.lends hlends).1 handle es
    rw [hput] at hputs
    have hreturned := hputs.reclaim ref handle
    rw [hreclaim] at hreturned
    rwa [hexec]

theorem accounted_pushAll (h : Accounted w) (networked : Bool) (id : String) (options : Options)
    (es : List Entry) (devices : List String) (outcome : SyncOutcome) :
    Accounted ((pushAll networked id options es devices outcome).run w).2 := by
  induction devices generalizing w outcome with
  | nil => exact h
  | cons device devices ih =>
      rw [pushAll, StateT.run_bind]
      refine ih ?_ _
      rw [run_pushTo]
      split
      · exact h
      · exact accounted_deliver h id options es _

theorem accounted_sync (h : Accounted w) (handle : Handle) (devices : List String) (mode : SyncMode) :
    Accounted ((sync handle devices mode).exec w).2 := by
  have hcounted := h.setsFaults (setsFaults_counted handle .sync w)
  rcases exec_sync_cases handle devices mode w with
    ⟨err, -, hexec⟩ | ⟨-, e, outcome, w', -, hpush, hexec⟩
  · rwa [hexec]
  · have hpushed := accounted_pushAll hcounted e.networked e.id e.options (e.table.scan []) devices ∅
    rw [hpush] at hpushed
    rwa [hexec]

end Pushes

end ObjectStore.World
