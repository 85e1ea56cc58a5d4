import ObjectStore.Proofs.World.Lending

/-!
# What loans and returns do to the books

The books of a manager say which engine is on loan under which id, and how often. A loan makes one entry
of the books larger by one, or adds it together with an engine that is new; a return takes one off again,
and with the last one the entry goes and its engine is closed. All other entries stay, all other engines
too, and so does everything that decides where a push goes.

Main statements: `LendsHandle.lends` and `ensures_reclaim_books`.
-/

namespace ObjectStore

namespace World

open ObjectStore.Action

/-- What a manager has on loan under an id. -/
def loan? (w : World) (ref : ManagerRef) (id : String) : Option Loan :=
  (w.managers.get? ref).bind fun m => m.loans.get? id

/-- The references that are still to be given out belong to no engine and to no manager. -/
def Fresh (w : World) : Prop :=
  ∀ r, w.next ≤ r → w.engines.get? r = none ∧ w.managers.get? r = none

/-- What a manager's directories are named by: application, user and base directory. -/
def owner? (w : World) (ref : ManagerRef) : Option (String × String × Option String) :=
  (w.managers.get? ref).map fun m => (m.app, m.user, m.base)

/-- Names, devices and directories lead where they led before. -/
structure SameWays (w w' : World) : Prop where
  names : SameNames w w'
  devices : w'.devices = w.devices
  owners : ∀ ref, w'.owner? ref = w.owner? ref

/-- The books are the same: at most switches, counters and wrappers have changed. -/
structure SameBooks (w w' : World) : Prop where
  ways : SameWays w w'
  disk : w'.disk = w.disk
  engines : w'.engines = w.engines
  loans : ∀ ref id, w'.loan? ref id = w.loan? ref id
  fresh : Fresh w → Fresh w'

/-! ## Steps that leave the books alone -/

theorem SameWays.refl (w : World) : SameWays w w := ⟨.refl w, rfl, fun _ => rfl⟩

theorem SameWays.trans {w w' w'' : World} (h : SameWays w w') (h' : SameWays w' w'') :
    SameWays w w'' :=
  ⟨h.names.trans h'.names, h'.devices.trans h.devices,
    fun ref => (h'.owners ref).trans (h.owners ref)⟩

/-- The same managers stand behind the devices. -/
theorem SameWays.resolve {w w' : World} (h : SameWays w w') (device : String) :
    w'.resolve device = w.resolve device := by
  have hheld : w'.isManagerHeld = w.isManagerHeld := funext h.names.isManagerHeld
  unfold World.resolve
  rw [h.devices, hheld]

theorem SameBooks.refl (w : World) : SameBooks w w :=
  ⟨.refl w, rfl, rfl, fun _ _ => rfl, id⟩

theorem SameBooks.trans {w w' w'' : World} (h : SameBooks w w') (h' : SameBooks w' w'') :
    SameBooks w w'' :=
  ⟨h.ways.trans h'.ways, h'.disk.trans h.disk, h'.engines.trans h.engines,
    fun ref id => (h'.loans ref id).trans (h.loans ref id), fun hw => h'.fresh (h.fresh hw)⟩

section ModifyManager

variable (w : World) (ref : ManagerRef) (f : Manager → Manager)

@[simp]
theorem devices_modifyManager : (w.modifyManager ref f).devices = w.devices := by
  unfold modifyManager
  split <;> rfl

@[simp]
theorem next_modifyManager : (w.modifyManager ref f).next = w.next := by
  unfold modifyManager
  split <;> rfl

theorem loan?_modifyManager (ref' : ManagerRef) (id : String) :
    (w.modifyManager ref f).loan? ref' id =
      if ref' = ref then (w.managers.get? ref).bind fun m => (f m).loans.get? id
      else w.loan? ref' id := by
  unfold loan?
  rw [get?_modifyManager]
  split
  · cases w.managers.get? ref <;> rfl
  · rfl

variable {w ref f}

/-- Where only what is on loan under one id changes, all other entries stay. -/
theorem loan?_modifyManager_of_ne {id id' : String} {ref' : ManagerRef}
    (hf : ∀ m id', id' ≠ id → (f m).loans.get? id' = m.loans.get? id')
    (hne : ¬ (ref' = ref ∧ id' = id)) :
    (w.modifyManager ref f).loan? ref' id' = w.loan? ref' id' := by
  rw [loan?_modifyManager]
  split
  · rename_i heq
    have hid : id' ≠ id := fun hid => hne ⟨heq, hid⟩
    rw [heq, loan?]
    cases w.managers.get? ref with
    | none => rfl
    | some m => exact hf m id' hid
  · rfl

theorem fresh_modifyManager (h : Fresh w) : Fresh (w.modifyManager ref f) := by
  intro r hr
  rw [next_modifyManager] at hr
  obtain ⟨hengine, hmanager⟩ := h r hr
  rw [engines_modifyManager, get?_modifyManager]
  refine ⟨hengine, ?_⟩
  split
  · rename_i heq
    rw [← heq, hmanager]
    rfl
  · exact hmanager

theorem sameWays_modifyManager
    (hf : ∀ m, (f m).app = m.app ∧ (f m).user = m.user ∧ (f m).base = m.base) :
    SameWays w (w.modifyManager ref f) where
  names := sameNames_modifyManager w ref f
  devices := devices_modifyManager w ref f
  owners ref' := by
    unfold owner?
    rw [get?_modifyManager]
    split
    · rename_i heq
      subst heq
      cases w.managers.get? ref' with
      | none => rfl
      | some m =>
          obtain ⟨happ, huser, hbase⟩ := hf m
          simp [happ, huser, hbase]
    · rfl

/-- The guard of a manager is not part of the books. -/
theorem sameBooks_modifyManager
    (hf : ∀ m, (f m).app = m.app ∧ (f m).user = m.user ∧ (f m).base = m.base)
    (hloans : ∀ m, w.managers.get? ref = some m → (f m).loans = m.loans) :
    SameBooks w (w.modifyManager ref f) where
  ways := sameWays_modifyManager hf
  disk := disk_modifyManager w ref f
  engines := engines_modifyManager w ref f
  loans ref' id := by
    rw [loan?_modifyManager]
    split
    · rename_i heq
      subst heq
      unfold loan?
      cases hm : w.managers.get? ref' with
      | none => rfl
      | some m => simp [hloans m hm]
    · rfl
  fresh := fresh_modifyManager

end ModifyManager

theorem SetsFaults.sameBooks {w w' : World} (h : SetsFaults w w') : SameBooks w w' := by
  cases h with
  | refl => exact .refl w
  | set faults hm hguard => exact sameBooks_modifyManager (fun _ => ⟨rfl, rfl, rfl⟩) fun _ _ => rfl

/-! ## Opening the engine of a store -/

theorem engine_of_openDirectory {path id : String} {options : Options} {networked : Bool}
    {held : List String → Bool} {d d' : Disk} {e : Engine}
    (h : Engine.openDirectory path id options networked held d = (.ok e, d')) :
    e.id = id ∧ e.options = options ∧ e.isClosed = false := by
  rcases Engine.openDirectory_cases path id options networked held d with
    ⟨err, d₁, hfailed, -⟩ | ⟨place, content, d₁, hrecover, -⟩
  · rw [h] at hfailed
    cases hfailed
  · rw [h] at hrecover
    rw [Engine.engine_of_recover path id options networked hrecover.symm]
    exact ⟨rfl, rfl, rfl⟩

/-- An opening that is refused adds to the disk at most. -/
theorem extends_of_openDirectory_error {path id : String} {options : Options} {networked : Bool}
    {held : List String → Bool} {d d' : Disk} {err : StorageError}
    (h : Engine.openDirectory path id options networked held d = (.error err, d')) :
    Disk.Extends d d' := by
  rcases Engine.openDirectory_cases path id options networked held d with
    ⟨err', d₁, hfailed, hext, -⟩ | ⟨place, content, d₁, hrecover, -, hext, -⟩
  · rw [h] at hfailed
    cases hfailed
    exact hext
  · rw [h] at hrecover
    unfold Engine.recover at hrecover
    simp only at hrecover
    split at hrecover
    · cases hrecover
    · split at hrecover
      · cases hrecover
      · cases hrecover
        exact hext

/-- An engine that is opened is the store that was asked for. -/
theorem Opens.engine {w : World} {m : Manager} {id : String} {options : Options} {e : Engine}
    {disk : Disk} (h : Opens w m id options e disk) :
    e.id = id ∧ e.options = options ∧ e.isClosed = false := by
  cases h with
  | memory _ _ he =>
      rw [he]
      exact ⟨rfl, rfl, rfl⟩
  | directory _ _ hopen => exact engine_of_openDirectory hopen

/-- A refusal adds to the disk at most, and leaves everything else as it is. -/
theorem Refused.exists_extends {w w' : World} (h : Refused w w') :
    ∃ disk, Disk.Extends w.disk disk ∧ w' = { w with disk } := by
  cases h with
  | same => exact ⟨w.disk, .refl _, rfl⟩
  | directory hopen => exact ⟨_, extends_of_openDirectory_error hopen, rfl⟩

/-! ## Loans -/

/-- Where the engine that is lent comes from. -/
inductive Source (w : World) (ref : ManagerRef) (id : String) (options : Options)
    (engine : EngineRef) (w' : World) : Prop where
  /-- The store is on loan already. -/
  | again {loan : Loan} {e : Engine} :
      w.loan? ref id = some loan → loan.engine = engine → w.engines.get? engine = some e →
      e.options.sameLayout options = true → w'.engines = w.engines → w'.disk = w.disk →
      Source w ref id options engine w'
  /-- The engine is opened for the first loan. -/
  | first {m : Manager} {e : Engine} :
      w.loan? ref id = none → engine = w.next → w.managers.get? ref = some m →
      Opens w m id options e w'.disk → w'.engines = w.engines.insert engine e →
      Source w ref id options engine w'

/-- One loan more of a store. -/
structure Lends (w : World) (ref : ManagerRef) (id : String) (options : Options)
    (engine : EngineRef) (w' : World) : Prop where
  ways : SameWays w w'
  fresh : Fresh w → Fresh w'
  loan : w'.loan? ref id = some { engine, handles := (w.loan? ref id).elim 0 Loan.handles + 1 }
  loans : ∀ {ref' id'}, ¬ (ref' = ref ∧ id' = id) → w'.loan? ref' id' = w.loan? ref' id'
  source : Source w ref id options engine w'

/-- Switches, counters and wrappers may change after a loan. -/
theorem Lends.sameBooks {w w' w'' : World} {ref : ManagerRef} {id : String} {options : Options}
    {engine : EngineRef} (h : Lends w ref id options engine w') (h' : SameBooks w' w'') :
    Lends w ref id options engine w'' where
  ways := h.ways.trans h'.ways
  fresh hw := h'.fresh (h.fresh hw)
  loan := (h'.loans ref id).trans h.loan
  loans hne := (h'.loans _ _).trans (h.loans hne)
  source := by
    cases h.source with
    | again hloan hengine he hlayout hengines hdisk =>
        exact .again hloan hengine he hlayout (h'.engines.trans hengines) (h'.disk.trans hdisk)
    | first hloan hengine hm hopens hengines =>
        exact .first hloan hengine hm (h'.disk ▸ hopens) (h'.engines.trans hengines)

/-- A loan is one entry more in the books, or one loan more of an entry. -/
theorem LendsEngine.lends {w w' : World} {ref : ManagerRef} {id : String} {options : Options}
    {engine : EngineRef} (h : LendsEngine w ref id options engine w') :
    Lends w ref id options engine w' := by
  have hinsert (loan : Loan) (m : Manager) (id' : String) (hid : id' ≠ id) :
      (m.loans.insert id loan).get? id' = m.loans.get? id' := by
    rw [SortedMap.get?_insert, if_neg hid]
  cases h with
  | @again m loan e hm hloan he hlayout =>
      have hloan? : w.loan? ref id = some loan := by simp [loan?, hm, hloan]
      constructor
      case ways => exact sameWays_modifyManager fun _ => ⟨rfl, rfl, rfl⟩
      case fresh => exact fresh_modifyManager
      case loan => simp [loan?_modifyManager, hm, SortedMap.get?_insert, hloan?]
      case loans => exact loan?_modifyManager_of_ne (hinsert _)
      case source =>
        exact .again hloan? rfl he hlayout (engines_modifyManager _ _ _) (disk_modifyManager _ _ _)
  | @first m e disk hm hloan hopens =>
      have hloan? : w.loan? ref id = none := by simp [loan?, hm, hloan]
      constructor
      case ways =>
        have hadded : SameWays w (addEngine { w with disk } e).2 :=
          ⟨⟨rfl, rfl, rfl⟩, rfl, fun _ => rfl⟩
        exact hadded.trans (sameWays_modifyManager fun _ => ⟨rfl, rfl, rfl⟩)
      case fresh =>
        intro hfresh
        refine fresh_modifyManager fun r hr => ?_
        -- The new engine has the last reference that was given out.
        have hr' : w.next + 1 ≤ r := hr
        have hne : r ≠ w.next := by omega
        obtain ⟨hengine, hmanager⟩ := hfresh r (by omega)
        exact ⟨(SortedMap.get?_insert _ _ _ _).trans ((if_neg hne).trans hengine), hmanager⟩
      case loan =>
        have hm' : (addEngine { w with disk } e).2.managers.get? ref = some m := hm
        simp [loan?_modifyManager, hm', SortedMap.get?_insert, hloan?]
      case loans => exact loan?_modifyManager_of_ne (hinsert _)
      case source =>
        refine .first hloan? rfl hm ?_ (engines_modifyManager _ _ _)
        rw [disk_modifyManager]
        exact hopens

theorem LendsHandle.lends {w w' : World} {ref : ManagerRef} {id : String} {options : Options}
    {handle : Handle} (h : LendsHandle w ref id options handle w') :
    Lends w ref id options handle.engine w' := by
  cases h with
  | direct hlends => exact hlends.lends
  | @wrapped m guard engine w₁ hlends =>
      -- To wrap the engine is no change to the books.
      have hnext : SameBooks w₁ { w₁ with next := w₁.next + 1 } :=
        ⟨⟨⟨rfl, rfl, rfl⟩, rfl, fun _ => rfl⟩, rfl, rfl, fun _ _ => rfl, fun hfresh r hr =>
          hfresh r (Nat.le_of_succ_le hr)⟩
      exact hlends.lends.sameBooks
        (hnext.trans (sameBooks_modifyManager (fun _ => ⟨rfl, rfl, rfl⟩) fun _ _ => rfl))

/-- The manager takes back what it has lent. -/
theorem LendsHandle.accepts {w w' : World} {ref : ManagerRef} {id : String} {options : Options}
    {handle : Handle} (h : LendsHandle w ref id options handle w') : Accepts w' ref handle := by
  cases h with
  | @direct m engine w' _ hm hguard => exact ⟨m, hm, by simp [Manager.accepts, hguard]⟩
  | @wrapped m guard engine w₁ _ hm hguard =>
      have hm' : ({ w₁ with next := w₁.next + 1 } : World).managers.get? ref = some m := hm
      refine ⟨_, by rw [wrap, get?_modifyManager, if_pos rfl, hm', Option.map_some], ?_⟩
      simp [wrap, Manager.accepts, hguard]

/-! ## Returns -/

/-- One loan less of a store. The last loan is gone from the books, and its engine is closed. -/
structure Returns (w : World) (ref : ManagerRef) (id : String) (engine : EngineRef)
    (w' : World) : Prop where
  ways : SameWays w w'
  disk : w'.disk = w.disk
  fresh : Fresh w → Fresh w'
  loan : ∃ loan, w.loan? ref id = some loan ∧ loan.engine = engine ∧
    w'.loan? ref id =
      if 1 < loan.handles then some { loan with handles := loan.handles - 1 } else none
  loans : ∀ {ref' id'}, ¬ (ref' = ref ∧ id' = id) → w'.loan? ref' id' = w.loan? ref' id'
  engines : ∀ {r e}, w.engines.get? r = some e →
    w'.engines.get? r = some e ∨
      r = engine ∧ w'.loan? ref id = none ∧ w'.engines.get? r = some e.close

theorem SameBooks.returns {w w' w'' : World} {ref : ManagerRef} {id : String} {engine : EngineRef}
    (h : SameBooks w w') (h' : Returns w' ref id engine w'') : Returns w ref id engine w'' where
  ways := h.ways.trans h'.ways
  disk := h'.disk.trans h.disk
  fresh hw := h'.fresh (h.fresh hw)
  loan := by
    rw [← h.loans]
    exact h'.loan
  loans hne := (h'.loans hne).trans (h.loans _ _)
  engines he := h'.engines (h.engines ▸ he)

theorem engines_closeEngine {w : World} {r : EngineRef} {e : Engine} (engine : EngineRef)
    (h : w.engines.get? r = some e) :
    (closeEngine w engine).engines.get? r = if r = engine then some e.close else some e := by
  unfold closeEngine
  split
  · rename_i e' he'
    rw [SortedMap.get?_insert]
    split
    · rename_i heq
      rw [heq, he'] at h
      cases h
      rfl
    · exact h
  · rename_i hnone
    rw [if_neg]
    · exact h
    · rintro rfl
      rw [hnone] at h
      cases h

/-- To close an engine leaves the books and everything else alone. -/
theorem ways_closeEngine (w : World) (engine : EngineRef) :
    SameWays w (closeEngine w engine) ∧ (closeEngine w engine).disk = w.disk ∧
      (closeEngine w engine).managers = w.managers ∧ (Fresh w → Fresh (closeEngine w engine)) := by
  unfold closeEngine
  split
  · rename_i e he
    refine ⟨⟨⟨rfl, rfl, rfl⟩, rfl, fun _ => rfl⟩, rfl, rfl, fun hfresh r hr => ?_⟩
    obtain ⟨hengine, hmanager⟩ := hfresh r hr
    refine ⟨?_, hmanager⟩
    have hne : r ≠ engine := by
      rintro rfl
      rw [hengine] at he
      cases he
    exact (SortedMap.get?_insert _ _ _ _).trans ((if_neg hne).trans hengine)
  · exact ⟨.refl w, rfl, rfl, id⟩

theorem ReturnsEngine.returns {w w' : World} {ref : ManagerRef} {id : String} {engine : EngineRef}
    (h : ReturnsEngine w ref id engine w') : Returns w ref id engine w' := by
  cases h with
  -- One loan less of the same entry.
  | @fewer m loan hm hloan hengine hmore =>
      have hloan? : w.loan? ref id = some loan := by simp [loan?, hm, hloan]
      constructor
      case ways => exact sameWays_modifyManager fun _ => ⟨rfl, rfl, rfl⟩
      case disk => exact disk_modifyManager _ _ _
      case fresh => exact fresh_modifyManager
      case loan =>
        refine ⟨loan, hloan?, hengine, ?_⟩
        simp [loan?_modifyManager, hm, SortedMap.get?_insert, hmore]
      case loans =>
        exact loan?_modifyManager_of_ne fun m id' hid => by simp [SortedMap.get?_insert, hid]
      case engines =>
        intro r e he
        rw [engines_modifyManager]
        exact .inl he
  -- The entry goes, and the engine is closed.
  | @last m loan hm hloan hengine hlast =>
      have hloan? : w.loan? ref id = some loan := by simp [loan?, hm, hloan]
      obtain ⟨hways, hdisk, hmanagers, hfresh⟩ :=
        ways_closeEngine (w.modifyManager ref fun m => { m with loans := m.loans.erase id }) engine
      have hloans (ref' : ManagerRef) (id' : String) : (closeEngine (w.modifyManager ref fun m =>
          { m with loans := m.loans.erase id }) engine).loan? ref' id' =
            (w.modifyManager ref fun m => { m with loans := m.loans.erase id }).loan? ref' id' := by
        unfold loan?
        rw [hmanagers]
      have hgone : (closeEngine (w.modifyManager ref fun m =>
          { m with loans := m.loans.erase id }) engine).loan? ref id = none := by
        simp [hloans, loan?_modifyManager, hm, SortedMap.get?_erase]
      constructor
      case ways =>
        refine SameWays.trans ?_ hways
        exact sameWays_modifyManager fun _ => ⟨rfl, rfl, rfl⟩
      case disk => exact hdisk.trans (disk_modifyManager _ _ _)
      case fresh => exact fun h => hfresh (fresh_modifyManager h)
      case loan => exact ⟨loan, hloan?, hengine, by rw [hgone, if_neg hlast]⟩
      case loans =>
        intro ref' id' hne
        rw [hloans]
        exact loan?_modifyManager_of_ne
          (fun m id' hid => by simp [SortedMap.get?_erase, hid]) hne
      case engines =>
        intro r e he
        have he' : (w.modifyManager ref fun m =>
            { m with loans := m.loans.erase id }).engines.get? r = some e := by
          rw [engines_modifyManager]
          exact he
        have hclosed := engines_closeEngine engine he'
        split at hclosed
        · rename_i heq
          exact .inr ⟨heq, hgone, hclosed⟩
        · exact .inl hclosed

/-- Wrappers are not part of the books. -/
theorem Unwraps.sameBooks {w w' : World} {ref : ManagerRef} (h : Unwraps w ref w') :
    SameBooks w w' := by
  cases h with
  | same => exact .refl w
  | erase => exact sameBooks_modifyManager (fun _ => ⟨rfl, rfl, rfl⟩) fun _ _ => rfl

/-- A return is one loan less in the books, or it is refused, which a manager does not do with what it
has lent. -/
theorem ensures_reclaim_books (ref : ManagerRef) (handle : Handle) (w : World) :
    (reclaim ref handle).Ensures w
      (fun _ w' => ∃ e, w.engines.get? handle.engine = some e ∧
        Returns w ref e.id handle.engine w')
      fun _ w' => SameBooks w w' ∧
        (Accepts w ref handle → ∀ e loan, w.engines.get? handle.engine = some e →
          w.loan? ref e.id = some loan → loan.engine ≠ handle.engine) := by
  refine (ensures_reclaim ref handle w).weaken ?_ ?_
  · intro _ w' h
    obtain ⟨e, w₁, he, hunwraps, hreturns⟩ := h
    exact ⟨e, he, hunwraps.sameBooks.returns hreturns.returns⟩
  · intro _ w' h
    obtain ⟨hunwraps, hrefused⟩ := h
    have hbooks := hunwraps.sameBooks
    refine ⟨hbooks, fun haccepts e loan he hloan => ?_⟩
    rw [← hbooks.loans] at hloan
    obtain ⟨m, hm, hloan⟩ := Option.bind_eq_some_iff.mp hloan
    exact hrefused haccepts e he m loan hm hloan

end World

end ObjectStore
