import ObjectStore.World.Depots
import ObjectStore.Proofs.SortedMap

/-!
# What is held, and what holds nothing new

An engine keeps its directory as long as it is held, so what a step does to the held engines decides
what may be done to the directories later. Most steps are tame: they touch neither the disk nor any
table, and every engine that is held after them was held before.

Main statements: `isEngineHeld_iff`, and `Tame.modifyManager` and `Tame.setDepot`, that a manager and a
depot can be changed freely as long as they hold no more than before.
-/

namespace ObjectStore

theorem Manager.holds_iff {m : Manager} {r : EngineRef} :
    m.holds r = true ↔
      (∃ id loan, m.loans.get? id = some loan ∧ loan.engine = r) ∨
        ∃ guard serial, m.guard = some guard ∧ (serial, r) ∈ guard.wrappers := by
  unfold holds
  rw [Bool.or_eq_true, List.any_eq_true, Option.any_eq_true]
  refine or_congr ?_ ?_
  · simp only [SortedMap.mem_values_iff, beq_iff_eq]
    constructor
    · rintro ⟨loan, ⟨id, hget⟩, heq⟩
      exact ⟨id, loan, hget, heq⟩
    · rintro ⟨id, loan, hget, heq⟩
      exact ⟨loan, ⟨id, hget⟩, heq⟩
  · simp only [List.any_eq_true, beq_iff_eq, Prod.exists]
    constructor
    · rintro ⟨guard, hguard, serial, engine, hmem, rfl⟩
      exact ⟨guard, serial, hguard, hmem⟩
    · rintro ⟨guard, serial, hguard, hmem⟩
      exact ⟨guard, hguard, serial, r, hmem, rfl⟩

theorem Depot.handle?_eq_none {d : Depot} (h : ∀ handle, d.phase ≠ .ready handle) : d.handle? = none := by
  unfold handle?
  split
  · rename_i handle hready
    exact absurd hready (h handle)
  · rfl

/-- A depot has a handle while it is ready. -/
theorem Depot.handle?_eq_some_iff {d : Depot} {handle : Handle} :
    d.handle? = some handle ↔ d.phase = .ready handle := by
  unfold handle?
  cases d.phase with
  | uninitialized => simp
  | ready handle' => simp
  | closed => simp

namespace World

/-! ## What is held -/

theorem isManagerHeld_iff {w : World} {manager : ManagerRef} :
    w.isManagerHeld manager = true ↔
      (∃ name, w.managerNames.get? name = some manager) ∨
        ∃ name d, w.depots.get? name = some d ∧ d.manager = manager := by
  unfold isManagerHeld
  rw [Bool.or_eq_true, List.contains_iff_mem, SortedMap.mem_values_iff, List.any_eq_true]
  refine or_congr Iff.rfl ?_
  simp only [SortedMap.mem_values_iff, beq_iff_eq]
  constructor
  · rintro ⟨d, ⟨name, hget⟩, heq⟩
    exact ⟨name, d, hget, heq⟩
  · rintro ⟨name, d, hget, heq⟩
    exact ⟨d, ⟨name, hget⟩, heq⟩

theorem isEngineHeld_iff {w : World} {r : EngineRef} :
    w.isEngineHeld r = true ↔
      (∃ name handle, w.handleNames.get? name = some handle ∧ handle.engine = r) ∨
        (∃ ref m, w.managers.get? ref = some m ∧ w.isManagerHeld ref = true ∧
          m.holds r = true) ∨
        ∃ name d handle, w.depots.get? name = some d ∧ d.handle? = some handle ∧
          handle.engine = r := by
  unfold isEngineHeld
  rw [Bool.or_eq_true, Bool.or_eq_true, or_assoc, List.any_eq_true, List.any_eq_true,
    List.any_eq_true]
  simp only [SortedMap.mem_values_iff, beq_iff_eq, Prod.exists, ← SortedMap.get?_eq_some_iff,
    Bool.and_eq_true, Option.any_eq_true]
  refine or_congr ?_ (or_congr Iff.rfl ?_)
  · constructor
    · rintro ⟨handle, ⟨name, hget⟩, heq⟩
      exact ⟨name, handle, hget, heq⟩
    · rintro ⟨name, handle, hget, heq⟩
      exact ⟨handle, ⟨name, hget⟩, heq⟩
  · constructor
    · rintro ⟨d, ⟨name, hget⟩, handle, hhandle, heq⟩
      exact ⟨name, d, handle, hget, hhandle, heq⟩
    · rintro ⟨name, d, handle, hget, hhandle, heq⟩
      exact ⟨d, ⟨name, hget⟩, handle, hhandle, heq⟩

theorem isDirectoryHeld_iff {w : World} {place : List String} :
    w.isDirectoryHeld place = true ↔
      ∃ r e, w.engines.get? r = some e ∧ w.isEngineHeld r = true ∧ e.directory? = some place := by
  unfold isDirectoryHeld
  rw [List.any_eq_true]
  simp only [Prod.exists, ← SortedMap.get?_eq_some_iff, Bool.and_eq_true, beq_iff_eq]

/-- An engine is held by a manager that has it and is held itself. -/
theorem isEngineHeld_of_manager {w : World} {ref : ManagerRef} {m : Manager} {r : EngineRef}
    (hm : w.managers.get? ref = some m) (hheld : w.isManagerHeld ref = true)
    (hr : m.holds r = true) : w.isEngineHeld r = true :=
  isEngineHeld_iff.mpr (.inr (.inl ⟨ref, m, hm, hheld, hr⟩))

/-! ## Names -/

/-- The same names stand for the same things. -/
structure SameNames (w w' : World) : Prop where
  depots : w'.depots = w.depots
  managerNames : w'.managerNames = w.managerNames
  handleNames : w'.handleNames = w.handleNames

namespace SameNames

variable {w w' w'' : World}

theorem refl (w : World) : SameNames w w := ⟨rfl, rfl, rfl⟩

theorem trans (h : SameNames w w') (h' : SameNames w' w'') : SameNames w w'' :=
  ⟨h'.depots.trans h.depots, h'.managerNames.trans h.managerNames,
    h'.handleNames.trans h.handleNames⟩

/-- Managers are held by names. -/
theorem isManagerHeld (h : SameNames w w') (manager : ManagerRef) :
    w'.isManagerHeld manager = w.isManagerHeld manager := by
  unfold World.isManagerHeld
  rw [h.depots, h.managerNames]

/-- Where the names stay the same, what counts is what the managers that are held hold. -/
theorem isEngineHeld (h : SameNames w w') {r : EngineRef} (hr : w'.isEngineHeld r = true) :
    w.isEngineHeld r = true ∨
      ∃ ref m, w'.managers.get? ref = some m ∧ w.isManagerHeld ref = true ∧ m.holds r = true := by
  rcases isEngineHeld_iff.mp hr with hhandle | ⟨ref, m, hm, hheld, hholds⟩ | hdepot
  · rw [h.handleNames] at hhandle
    exact .inl (isEngineHeld_iff.mpr (.inl hhandle))
  · rw [h.isManagerHeld] at hheld
    exact .inr ⟨ref, m, hm, hheld, hholds⟩
  · rw [h.depots] at hdepot
    exact .inl (isEngineHeld_iff.mpr (.inr (.inr hdepot)))

end SameNames

/-! ## Changing a manager -/

section ModifyManager

variable (w : World) (ref : ManagerRef) (f : Manager → Manager)

theorem get?_modifyManager (ref' : ManagerRef) :
    (w.modifyManager ref f).managers.get? ref' =
      if ref' = ref then (w.managers.get? ref).map f else w.managers.get? ref' := by
  unfold modifyManager
  -- A manager that is not there cannot be changed.
  cases hm : w.managers.get? ref with
  | none =>
      by_cases h : ref' = ref
      · simp [h, hm]
      · simp [h]
  | some m => simp [SortedMap.get?_insert]

theorem sameNames_modifyManager : SameNames w (w.modifyManager ref f) := by
  unfold modifyManager
  split
  · exact ⟨rfl, rfl, rfl⟩
  · exact .refl w

@[simp]
theorem engines_modifyManager : (w.modifyManager ref f).engines = w.engines := by
  unfold modifyManager
  split <;> rfl

@[simp]
theorem disk_modifyManager : (w.modifyManager ref f).disk = w.disk := by
  unfold modifyManager
  split <;> rfl

variable {w ref f}

/-- What is held after a change to a manager was held before, or the manager holds it now. -/
theorem isEngineHeld_modifyManager {r : EngineRef}
    (h : (w.modifyManager ref f).isEngineHeld r = true) :
    w.isEngineHeld r = true ∨
      ∃ m, w.managers.get? ref = some m ∧ w.isManagerHeld ref = true ∧ (f m).holds r = true := by
  -- Only the manager that was changed can hold something else than before.
  rcases (sameNames_modifyManager w ref f).isEngineHeld h with hold | ⟨ref', m, hm, hheld, hholds⟩
  · exact .inl hold
  · rw [get?_modifyManager] at hm
    split at hm
    · rename_i heq
      subst heq
      obtain ⟨m', hm', rfl⟩ := Option.map_eq_some_iff.mp hm
      exact .inr ⟨m', hm', hheld, hholds⟩
    · exact .inl (isEngineHeld_of_manager hm hheld hholds)

end ModifyManager

/-! ## Tame steps -/

/-- The disk and all tables stay as they are, and what is held was held before. -/
structure Tame (w w' : World) : Prop where
  disk : w'.disk = w.disk
  engines : ∀ {r e'}, w'.engines.get? r = some e' →
    ∃ e, w.engines.get? r = some e ∧ e'.table = e.table ∧ e'.backing = e.backing
  held : ∀ {r}, w'.isEngineHeld r = true → w.isEngineHeld r = true

namespace Tame

variable {w w' w'' : World}

/-- Engines that are the same have the same tables. -/
theorem of_engines_eq (hdisk : w'.disk = w.disk) (hengines : w'.engines = w.engines)
    (hheld : ∀ {r}, w'.isEngineHeld r = true → w.isEngineHeld r = true) : Tame w w' where
  disk := hdisk
  engines {r e'} h := by
    rw [hengines] at h
    exact ⟨e', h, rfl, rfl⟩
  held := hheld

theorem refl (w : World) : Tame w w :=
  of_engines_eq rfl rfl id

theorem trans (h : Tame w w') (h' : Tame w' w'') : Tame w w'' where
  disk := h'.disk.trans h.disk
  engines hr := by
    obtain ⟨e', hr', htable', hbacking'⟩ := h'.engines hr
    obtain ⟨e, hr, htable, hbacking⟩ := h.engines hr'
    exact ⟨e, hr, htable'.trans htable, hbacking'.trans hbacking⟩
  held hr := h.held (h'.held hr)

/-- A manager may be changed as long as it holds no more than before. -/
theorem modifyManager {ref : ManagerRef} {f : Manager → Manager}
    (h : ∀ m r, w.managers.get? ref = some m → (f m).holds r = true → m.holds r = true) :
    Tame w (w.modifyManager ref f) := by
  refine of_engines_eq (disk_modifyManager w ref f) (engines_modifyManager w ref f) fun {r} hr => ?_
  rcases isEngineHeld_modifyManager hr with hold | ⟨m, hm, hheld, hholds⟩
  · exact hold
  · exact isEngineHeld_of_manager hm hheld (h m r hm hholds)

/-- A depot may be named if its manager is held and its handle, if it has one, is held. -/
theorem setDepot {name : String} {d : Depot} (hmanager : w.isManagerHeld d.manager = true)
    (hhandle : ∀ handle, d.handle? = some handle → w.isEngineHeld handle.engine = true) :
    Tame w (w.setDepot name d) := by
  have hget (name' : String) :
      (w.setDepot name d).depots.get? name' =
        if name' = name then some d else w.depots.get? name' :=
    SortedMap.get?_insert w.depots name d name'
  refine of_engines_eq rfl rfl fun {r} hr => isEngineHeld_iff.mpr ?_
  -- What is held is held by a named handle, by a manager that is held, or by a depot.
  rcases isEngineHeld_iff.mp hr with hname | ⟨ref, m, hm, hheld, hholds⟩ | ⟨name', d', handle, hd, hd', rfl⟩
  · exact .inl hname
  · refine .inr (.inl ⟨ref, m, hm, ?_, hholds⟩)
    -- The manager may be held by the new depot alone, and then it was held before by assumption.
    rcases isManagerHeld_iff.mp hheld with hname | ⟨name', d', hd, rfl⟩
    · exact isManagerHeld_iff.mpr (.inl hname)
    · rw [hget] at hd
      split at hd
      · cases hd
        exact hmanager
      · exact isManagerHeld_iff.mpr (.inr ⟨name', d', hd, rfl⟩)
  · rw [hget] at hd
    split at hd
    · cases hd
      exact isEngineHeld_iff.mp (hhandle handle hd')
    · exact .inr (.inr ⟨name', d', handle, hd, hd', rfl⟩)

/-- Names of managers and depots may be dropped. -/
theorem dropNames {managerNames : SortedMap String ManagerRef} {depots : SortedMap String Depot}
    (hmanagers : ∀ {name ref}, managerNames.get? name = some ref →
      w.managerNames.get? name = some ref)
    (hdepots : ∀ {name d}, depots.get? name = some d → w.depots.get? name = some d) :
    Tame w { w with managerNames, depots } := by
  refine of_engines_eq rfl rfl fun {r} hr => isEngineHeld_iff.mpr ?_
  rcases isEngineHeld_iff.mp hr with hname | ⟨ref, m, hm, hheld, hholds⟩ | ⟨name, d, handle, hd, hd', rfl⟩
  · exact .inl hname
  · refine .inr (.inl ⟨ref, m, hm, isManagerHeld_iff.mpr ?_, hholds⟩)
    rcases isManagerHeld_iff.mp hheld with ⟨name, hname⟩ | ⟨name, d, hd, rfl⟩
    · exact .inl ⟨name, hmanagers hname⟩
    · exact .inr ⟨name, d, hdepots hd, rfl⟩
  · exact .inr (.inr ⟨name, d, handle, hdepots hd, hd', rfl⟩)

end Tame

end World

end ObjectStore
