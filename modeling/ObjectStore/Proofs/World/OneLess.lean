import ObjectStore.Proofs.World.Orderly

/-!
# Worlds with one loan less

When a guarded manager has taken a wrapper back, it has one wrapper less and one loan less of the engine
behind it, and that engine is closed if this was the last loan. `OneLess` says of two worlds that they
differ in this way and in no other. Everything that does not ask for the wrapper or for that engine finds
the same in both, directories included, and the same change made to both leaves them one loan apart.

Main statements: `OneLess.isDirectoryHeld_eq`, `OneLess.of_modifyManager` and `OneLess.setEngine`.
-/

namespace ObjectStore

/-- An opening asks for one directory only whether it is held. -/
theorem Engine.openDirectory_congr {path id : String} {options : Options} {networked : Bool}
    {held held' : List String → Bool} {d : Disk} (h : held' (Path.place path) = held (Path.place path)) :
    openDirectory path id options networked held' d = openDirectory path id options networked held d := by
  obtain ⟨-, -, hfind⟩ := extends_prepareDirectory path id options d
  unfold openDirectory
  rcases hprepare : prepareDirectory path id options d with ⟨err | place, d₁⟩
  · rfl
  · rw [hprepare] at hfind
    rw [Disk.place_of_find (hfind place rfl)]
    simp only [h]

/-! ## One loan less -/

/-- A manager without one of its wrappers and without one of the loans of the engine behind it; `left` of
these loans are left. -/
structure Manager.OneLess (id : String) (wrapper : Nat × EngineRef) (left : Nat) (m m' : Manager) :
    Prop where
  app : m'.app = m.app
  user : m'.user = m.user
  base : m'.base = m.base
  networked : m'.networked = m.networked
  guard : ∃ guard, m.guard = some guard ∧ wrapper ∈ guard.wrappers ∧
    m'.guard = some { guard with wrappers := guard.wrappers.erase wrapper }
  loan : m.loans.get? id = some ⟨wrapper.2, left + 1⟩
  rest : m'.loans.get? id = if left = 0 then none else some ⟨wrapper.2, left⟩
  loans : ∀ id', id' ≠ id → m'.loans.get? id' = m.loans.get? id'

/-- A return takes one loan off the entry of its store. -/
theorem Manager.OneLess.of_return {m : Manager} {guard : Guard} {id : String} {wrapper : Nat × EngineRef}
    {left : Nat} (hguard : m.guard = some guard) (hwrapper : wrapper ∈ guard.wrappers)
    (hentry : m.loans.get? id = some ⟨wrapper.2, left + 1⟩) :
    m.OneLess id wrapper left { m with
      loans := if 1 < left + 1 then m.loans.insert id ⟨wrapper.2, left⟩ else m.loans.erase id
      guard := some { guard with wrappers := guard.wrappers.erase wrapper } } where
  app := rfl
  user := rfl
  base := rfl
  networked := rfl
  guard := ⟨guard, hguard, hwrapper, rfl⟩
  loan := hentry
  rest := by
    by_cases hleft : left = 0
    · simp [hleft, SortedMap.get?_erase]
    · simp [hleft, SortedMap.get?_insert, Nat.pos_of_ne_zero hleft]
  loans id' hid := by
    simp only
    split
    · rw [SortedMap.get?_insert, if_neg hid]
    · rw [SortedMap.get?_erase, if_neg hid]

namespace World

open ObjectStore.Action

/-- A world with one loan less of a store of a manager. The engine of the store is closed if no loans are
left. -/
structure OneLess (ref : ManagerRef) (id : String) (wrapper : Nat × EngineRef) (left : Nat)
    (w w' : World) : Prop where
  next : w'.next = w.next
  disk : w'.disk = w.disk
  names : SameNames w w'
  devices : w'.devices = w.devices
  manager : ∃ m m', w.managers.get? ref = some m ∧ w'.managers.get? ref = some m' ∧
    m.OneLess id wrapper left m'
  managers : ∀ ref', ref' ≠ ref → w'.managers.get? ref' = w.managers.get? ref'
  engine : ∃ e, w.engines.get? wrapper.2 = some e ∧ e.id = id ∧
    (∀ place, e.directory? = some place → ∃ above, place = above ++ [id]) ∧
    w'.engines.get? wrapper.2 = some (if left = 0 then e.close else e)
  engines : ∀ r, r ≠ wrapper.2 → w'.engines.get? r = w.engines.get? r

namespace OneLess

variable {ref : ManagerRef} {id : String} {wrapper : Nat × EngineRef} {left : Nat} {w w' : World}

/-! ### What is the same -/

theorem loan? (h : OneLess ref id wrapper left w w') : w.loan? ref id = some ⟨wrapper.2, left + 1⟩ := by
  obtain ⟨m, m', hm, -, hless⟩ := h.manager
  simp [World.loan?, hm, hless.loan]

theorem loan?_left (h : OneLess ref id wrapper left w w') :
    w'.loan? ref id = if left = 0 then none else some ⟨wrapper.2, left⟩ := by
  obtain ⟨m, m', -, hm', hless⟩ := h.manager
  simp [World.loan?, hm', hless.rest]

theorem loan?_eq (h : OneLess ref id wrapper left w w') {ref' : ManagerRef} {id' : String}
    (hne : ¬ (ref' = ref ∧ id' = id)) : w'.loan? ref' id' = w.loan? ref' id' := by
  unfold World.loan?
  by_cases heq : ref' = ref
  · subst heq
    obtain ⟨m, m', hm, hm', hless⟩ := h.manager
    rw [hm, hm', Option.bind_some, Option.bind_some, hless.loans id' fun hid => hne ⟨rfl, hid⟩]
  · rw [h.managers ref' heq]

theorem mem_wrappers (h : OneLess ref id wrapper left w w') {ref' : ManagerRef} {x : Nat × EngineRef}
    (hne : ¬ (ref' = ref ∧ x = wrapper)) : x ∈ w'.wrappers ref' ↔ x ∈ w.wrappers ref' := by
  by_cases heq : ref' = ref
  · subst heq
    obtain ⟨m, m', hm, hm', hless⟩ := h.manager
    obtain ⟨guard, hguard, -, hguard'⟩ := hless.guard
    have hx : x ≠ wrapper := fun hx => hne ⟨rfl, hx⟩
    simp [wrappers, hm, hm', hguard, hguard', List.mem_erase_of_ne hx]
  · rw [wrappers_of_managers (h.managers ref' heq)]

theorem guarded?_eq (h : OneLess ref id wrapper left w w') (ref' : ManagerRef) :
    w'.guarded? ref' = w.guarded? ref' := by
  by_cases heq : ref' = ref
  · subst heq
    obtain ⟨m, m', hm, hm', hless⟩ := h.manager
    obtain ⟨guard, hguard, -, hguard'⟩ := hless.guard
    simp [guarded?, hm, hm', hguard, hguard']
  · exact guarded?_of_managers (h.managers ref' heq)

theorem faults?_eq (h : OneLess ref id wrapper left w w') (handle : Handle) :
    faults? handle w' = faults? handle w := by
  cases handle with
  | direct engine => rfl
  | wrapped serial lender engine =>
      unfold faults?
      by_cases heq : lender = ref
      · subst heq
        obtain ⟨m, m', hm, hm', hless⟩ := h.manager
        obtain ⟨guard, hguard, -, hguard'⟩ := hless.guard
        simp [hm, hm', hguard, hguard']
      · simp only [h.managers lender heq]

theorem blocks_eq (h : OneLess ref id wrapper left w w') (handle : Handle) (call : EngineCall) :
    blocks handle call w' = blocks handle call w := by
  unfold blocks
  rw [h.faults?_eq]

/-- All engines are as they were, but for the one that may have been closed. -/
theorem get?_engines (h : OneLess ref id wrapper left w w') {r : EngineRef}
    (hr : r ≠ wrapper.2 ∨ 0 < left) : w'.engines.get? r = w.engines.get? r := by
  by_cases heq : r = wrapper.2
  · obtain ⟨e, he, -, -, he'⟩ := h.engine
    have hleft : left ≠ 0 := Nat.ne_of_gt (hr.resolve_left fun hne => hne heq)
    rw [heq, he, he', if_neg hleft]
  · exact h.engines r heq

/-- What a manager has, it still has, but for the engine that may have been closed. -/
theorem has_iff (h : OneLess ref id wrapper left w w') {r : EngineRef}
    (hr : r ≠ wrapper.2 ∨ 0 < left) (ref' : ManagerRef) :
    ((∃ id' loan, w'.loan? ref' id' = some loan ∧ loan.engine = r) ∨
        ∃ serial, (serial, r) ∈ w'.wrappers ref') ↔
      (∃ id' loan, w.loan? ref' id' = some loan ∧ loan.engine = r) ∨
        ∃ serial, (serial, r) ∈ w.wrappers ref' := by
  by_cases hself : ref' = ref ∧ r = wrapper.2
  · -- The engine is on loan before and after, under the same id.
    obtain ⟨rfl, rfl⟩ := hself
    have hleft : left ≠ 0 := Nat.ne_of_gt (hr.resolve_left fun hne => hne rfl)
    refine iff_of_true (.inl ⟨id, _, h.loan?_left.trans (if_neg hleft), rfl⟩) (.inl ⟨id, _, h.loan?, rfl⟩)
  · refine or_congr (exists_congr fun id' => ?_) (exists_congr fun serial => ?_)
    · by_cases hentry : ref' = ref ∧ id' = id
      · -- The entry is of the other engine in both worlds.
        obtain ⟨rfl, rfl⟩ := hentry
        have hne : wrapper.2 ≠ r := fun heq => hself ⟨rfl, heq.symm⟩
        rw [h.loan?, h.loan?_left]
        split <;> simp [hne]
      · rw [h.loan?_eq hentry]
    · refine h.mem_wrappers ?_
      rintro ⟨rfl, rfl⟩
      exact hself ⟨rfl, rfl⟩

theorem isEngineHeld_iff (h : OneLess ref id wrapper left w w') {r : EngineRef}
    (hr : r ≠ wrapper.2 ∨ 0 < left) : w'.isEngineHeld r = true ↔ w.isEngineHeld r = true := by
  rw [isEngineHeld_iff_books, isEngineHeld_iff_books]
  simp only [h.names.handleNames, h.names.depots, h.names.isManagerHeld, h.has_iff hr]

/-- A directory is held as before, unless the engine that may have been closed lies there. -/
theorem isDirectoryHeld_eq (h : OneLess ref id wrapper left w w') {place : List String}
    (hplace : (∀ above, place ≠ above ++ [id]) ∨ 0 < left) :
    w'.isDirectoryHeld place = w.isDirectoryHeld place := by
  rw [Bool.eq_iff_iff, isDirectoryHeld_iff, isDirectoryHeld_iff]
  refine exists_congr fun r => ?_
  by_cases hr : r ≠ wrapper.2 ∨ 0 < left
  · simp only [h.get?_engines hr, h.isEngineHeld_iff hr]
  · -- The engine that is closed lies in a directory of its id, and that is not the place.
    obtain ⟨rfl, hleft⟩ : r = wrapper.2 ∧ ¬ 0 < left := by simpa using hr
    have hother := hplace.resolve_right hleft
    obtain ⟨e, he, -, hfiled, he'⟩ := h.engine
    have hnot (e₁ : Engine) (he₁ : e₁.directory? = e.directory?) : e₁.directory? ≠ some place := by
      intro hplace
      obtain ⟨above, habove⟩ := hfiled place (he₁ ▸ hplace)
      exact hother above habove
    have hdirectory : (if left = 0 then e.close else e).directory? = e.directory? := by
      split <;> rfl
    refine iff_of_false ?_ ?_
    · rintro ⟨e₁, he₁, -, hplace₁⟩
      rw [he'] at he₁
      cases he₁
      exact hnot _ hdirectory hplace₁
    · rintro ⟨e₁, he₁, -, hplace₁⟩
      rw [he] at he₁
      cases he₁
      exact hnot _ rfl hplace₁

/-! ### Changes made to both worlds -/

theorem of_disk (h : OneLess ref id wrapper left w w') (disk : Disk) :
    OneLess ref id wrapper left { w with disk } { w' with disk } :=
  ⟨h.next, rfl, ⟨h.names.depots, h.names.managerNames, h.names.handleNames⟩, h.devices, h.manager,
    h.managers, h.engine, h.engines⟩

theorem addEngine (h : OneLess ref id wrapper left w w') (hfresh : Fresh w) (e : Engine) :
    OneLess ref id wrapper left (w.addEngine e).2 (w'.addEngine e).2 := by
  obtain ⟨e₀, he₀, hid, hfiled, he₀'⟩ := h.engine
  have hold : wrapper.2 ≠ w.next := by
    intro heq
    rw [heq, (hfresh w.next (Nat.le_refl _)).1] at he₀
    cases he₀
  have hget (r : EngineRef) :
      (w.addEngine e).2.engines.get? r = if r = w.next then some e else w.engines.get? r :=
    SortedMap.get?_insert w.engines w.next e r
  have hget' (r : EngineRef) :
      (w'.addEngine e).2.engines.get? r = if r = w.next then some e else w'.engines.get? r := by
    rw [← h.next]
    exact SortedMap.get?_insert w'.engines w'.next e r
  constructor
  case next => exact congrArg Nat.succ h.next
  case disk => exact h.disk
  case names => exact ⟨h.names.depots, h.names.managerNames, h.names.handleNames⟩
  case devices => exact h.devices
  case manager => exact h.manager
  case managers => exact h.managers
  case engine =>
    refine ⟨e₀, ?_, hid, hfiled, ?_⟩
    · rw [hget, if_neg hold, he₀]
    · rw [hget', if_neg hold, he₀']
  case engines =>
    intro r hr
    rw [hget, hget', h.engines r hr]

/-- Changes to a manager that respect what is less. At the manager itself they may be different. -/
theorem of_modifyManager (h : OneLess ref id wrapper left w w') (ref' : ManagerRef) {left' : Nat}
    {f f' : Manager → Manager}
    (hself : ref' = ref → ∀ m m', m.OneLess id wrapper left m' →
      (f m).OneLess id wrapper left' (f' m'))
    (hother : ref' ≠ ref → f' = f ∧ left' = left) (hzero : left' = 0 ↔ left = 0) :
    OneLess ref id wrapper left' (w.modifyManager ref' f) (w'.modifyManager ref' f') := by
  constructor
  case next => rw [next_modifyManager, next_modifyManager, h.next]
  case disk => rw [disk_modifyManager, disk_modifyManager, h.disk]
  case names =>
    have hnames := sameNames_modifyManager w ref' f
    have hnames' := sameNames_modifyManager w' ref' f'
    exact ⟨hnames'.depots.trans (h.names.depots.trans hnames.depots.symm),
      hnames'.managerNames.trans (h.names.managerNames.trans hnames.managerNames.symm),
      hnames'.handleNames.trans (h.names.handleNames.trans hnames.handleNames.symm)⟩
  case devices => rw [devices_modifyManager, devices_modifyManager, h.devices]
  case manager =>
    obtain ⟨m, m', hm, hm', hless⟩ := h.manager
    rw [get?_modifyManager, get?_modifyManager]
    by_cases heq : ref = ref'
    · subst heq
      exact ⟨f m, f' m', by simp [hm], by simp [hm'], hself rfl m m' hless⟩
    · obtain ⟨-, rfl⟩ := hother (Ne.symm heq)
      exact ⟨m, m', by rw [if_neg heq, hm], by rw [if_neg heq, hm'], hless⟩
  case managers =>
    intro ref'' hne
    rw [get?_modifyManager, get?_modifyManager]
    by_cases heq : ref'' = ref'
    · subst heq
      obtain ⟨rfl, -⟩ := hother hne
      rw [if_pos rfl, if_pos rfl, h.managers _ hne]
    · rw [if_neg heq, if_neg heq, h.managers _ hne]
  case engine =>
    rw [engines_modifyManager, engines_modifyManager]
    simp only [hzero]
    exact h.engine
  case engines =>
    rw [engines_modifyManager, engines_modifyManager]
    exact h.engines

/-- The same change to a manager. -/
theorem modifyManager (h : OneLess ref id wrapper left w w') (ref' : ManagerRef) {f : Manager → Manager}
    (hf : ref' = ref → ∀ m m', m.OneLess id wrapper left m' → (f m).OneLess id wrapper left (f m')) :
    OneLess ref id wrapper left (w.modifyManager ref' f) (w'.modifyManager ref' f) :=
  h.of_modifyManager ref' hf (fun _ => ⟨rfl, rfl⟩) Iff.rfl

/-- The same change to an engine that is not closed in one of the worlds only. -/
theorem setEngine (h : OneLess ref id wrapper left w w') {r : EngineRef} {e e' : Engine}
    (hr : r ≠ wrapper.2 ∨ 0 < left) (he : w.engines.get? r = some e) (hid : e'.id = e.id)
    (hdirectory : e'.directory? = e.directory?) :
    OneLess ref id wrapper left { w with engines := w.engines.insert r e' }
      { w' with engines := w'.engines.insert r e' } := by
  have hget (r' : EngineRef) : ({ w with engines := w.engines.insert r e' } : World).engines.get? r' =
      if r' = r then some e' else w.engines.get? r' := SortedMap.get?_insert w.engines r e' r'
  have hget' (r' : EngineRef) : ({ w' with engines := w'.engines.insert r e' } : World).engines.get? r' =
      if r' = r then some e' else w'.engines.get? r' := SortedMap.get?_insert w'.engines r e' r'
  refine ⟨h.next, h.disk, ⟨h.names.depots, h.names.managerNames, h.names.handleNames⟩, h.devices,
    h.manager, h.managers, ?_, fun r' hr' => ?_⟩
  · obtain ⟨e₀, he₀, hid₀, hfiled, he₀'⟩ := h.engine
    rw [hget, hget']
    by_cases heq : wrapper.2 = r
    · -- There are loans left, and so the engine is the same in both worlds.
      have hleft : left ≠ 0 := Nat.ne_of_gt (hr.resolve_left fun hne => hne heq.symm)
      rw [heq, he] at he₀
      cases he₀
      refine ⟨e', if_pos heq, hid.trans hid₀, fun place hplace => ?_, ?_⟩
      · rw [hdirectory] at hplace
        exact hfiled place hplace
      · rw [if_pos heq, if_neg hleft]
    · exact ⟨e₀, by rw [if_neg heq, he₀], hid₀, hfiled, by rw [if_neg heq, he₀']⟩
  · rw [hget, hget', h.engines r' hr']

end OneLess

end World

/-! ## What respects one loan less -/

namespace Manager.OneLess

variable {id : String} {wrapper : Nat × EngineRef} {left : Nat} {m m' : Manager}

/-- The same change to loans of other stores. -/
theorem mapLoans (h : m.OneLess id wrapper left m') {f : SortedMap String Loan → SortedMap String Loan}
    {g : String → Option Loan → Option Loan}
    (hf : ∀ loans id', (f loans).get? id' = g id' (loans.get? id')) (hid : ∀ loan?, g id loan? = loan?) :
    Manager.OneLess id wrapper left { m with loans := f m.loans } { m' with loans := f m'.loans } where
  app := h.app
  user := h.user
  base := h.base
  networked := h.networked
  guard := h.guard
  loan := (hf m.loans id).trans ((hid _).trans h.loan)
  rest := (hf m'.loans id).trans ((hid _).trans h.rest)
  loans id' hne := by rw [hf, hf, h.loans id' hne]

theorem insertLoan (h : m.OneLess id wrapper left m') {id' : String} (hne : id' ≠ id) (loan : Loan) :
    Manager.OneLess id wrapper left { m with loans := m.loans.insert id' loan }
      { m' with loans := m'.loans.insert id' loan } := by
  refine h.mapLoans (fun loans id'' => SortedMap.get?_insert loans id' loan id'') fun loan? => ?_
  rw [if_neg (Ne.symm hne)]

theorem eraseLoan (h : m.OneLess id wrapper left m') {id' : String} (hne : id' ≠ id) :
    Manager.OneLess id wrapper left { m with loans := m.loans.erase id' }
      { m' with loans := m'.loans.erase id' } := by
  refine h.mapLoans (fun loans id'' => SortedMap.get?_erase loans id' id'') fun loan? => ?_
  rw [if_neg (Ne.symm hne)]

/-- The same change to the guard. -/
theorem mapGuard (h : m.OneLess id wrapper left m') {f : Guard → Guard}
    (hmem : ∀ guard, wrapper ∈ guard.wrappers → wrapper ∈ (f guard).wrappers)
    (herase : ∀ guard, wrapper ∈ guard.wrappers →
      f { guard with wrappers := guard.wrappers.erase wrapper } =
        { f guard with wrappers := (f guard).wrappers.erase wrapper }) :
    Manager.OneLess id wrapper left { m with guard := m.guard.map f }
      { m' with guard := m'.guard.map f } where
  app := h.app
  user := h.user
  base := h.base
  networked := h.networked
  guard := by
    obtain ⟨guard, hguard, hwrapper, hguard'⟩ := h.guard
    refine ⟨f guard, by rw [hguard, Option.map_some], hmem guard hwrapper, ?_⟩
    rw [hguard', Option.map_some, herase guard hwrapper]
  loan := h.loan
  rest := h.rest
  loans := h.loans

/-- The store itself has another number of loans. -/
theorem setEntry (h : m.OneLess id wrapper left m') {left' : Nat} (hpos : 0 < left') :
    Manager.OneLess id wrapper left' { m with loans := m.loans.insert id ⟨wrapper.2, left' + 1⟩ }
      { m' with loans := m'.loans.insert id ⟨wrapper.2, left'⟩ } where
  app := h.app
  user := h.user
  base := h.base
  networked := h.networked
  guard := h.guard
  loan := by rw [SortedMap.get?_insert, if_pos rfl]
  rest := by rw [SortedMap.get?_insert, if_pos rfl, if_neg (Nat.ne_of_gt hpos)]
  loans id' hid := by
    rw [SortedMap.get?_insert, SortedMap.get?_insert, if_neg hid, if_neg hid, h.loans id' hid]

end Manager.OneLess

end ObjectStore
