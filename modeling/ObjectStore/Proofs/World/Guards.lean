import ObjectStore.Proofs.World.Accounts
import ObjectStore.Proofs.World.Answers

/-!
# Guards over a loan and its return

A guard has switches, counters and the wrappers that are lent out. Calls move the counters only; a loan
adds one wrapper, and the return of that wrapper takes it off again. What is held depends on the books and
the wrappers, and so it is the same before a loan and after its return.

Main statements: `LendsHandle.guards`, `ensures_reclaim_accepted` and `isEngineHeld_congr`.
-/

namespace ObjectStore

/-- The switches alone, with all counters at zero. -/
def Faults.switches (f : Faults) : Faults :=
  { f with putCalls := 0, deleteCalls := 0, scanCalls := 0, syncCalls := 0 }

theorem Faults.blocks_switches (f : Faults) (call : EngineCall) :
    f.switches.blocks call = f.blocks call := by
  cases call <;> rfl

theorem Faults.switches_count (f : Faults) (call : EngineCall) :
    (f.count call).switches = f.switches := by
  cases call <;> rfl

/-- The wrapper that a handle is, with its engine. -/
def Handle.wrapper? : Handle → Option (Nat × EngineRef)
  | .direct _ => none
  | .wrapped serial _ engine => some (serial, engine)

namespace World

open ObjectStore.Action

/-- The switches of a manager, if it has a guard. -/
def switches? (w : World) (ref : ManagerRef) : Option (Option Faults) :=
  (w.managers.get? ref).map fun m => m.guard.map fun guard => guard.faults.switches

/-- The wrappers that a manager has lent out. -/
def wrappers (w : World) (ref : ManagerRef) : List (Nat × EngineRef) :=
  (((w.managers.get? ref).bind Manager.guard).map Guard.wrappers).getD []

/-- All switches and wrappers are the same. -/
structure SameGuards (w w' : World) : Prop where
  switches : ∀ ref, w'.switches? ref = w.switches? ref
  wrappers : ∀ ref, w'.wrappers ref = w.wrappers ref

/-! ## Changing a manager -/

section ModifyManager

variable {w : World} {ref : ManagerRef} {f g : Manager → Manager}

theorem modifyManager_congr (h : ∀ m, w.managers.get? ref = some m → f m = g m) :
    w.modifyManager ref f = w.modifyManager ref g := by
  unfold modifyManager
  cases hm : w.managers.get? ref with
  | none => rfl
  | some m => simp only [h m hm]

theorem switches?_modifyManager
    (h : ∀ m, w.managers.get? ref = some m →
      (f m).guard.map (fun guard => guard.faults.switches) =
        m.guard.map fun guard => guard.faults.switches) (ref' : ManagerRef) :
    (w.modifyManager ref f).switches? ref' = w.switches? ref' := by
  unfold switches?
  rw [get?_modifyManager]
  split
  · rename_i heq
    rw [heq]
    cases hm : w.managers.get? ref with
    | none => rfl
    | some m => simp only [Option.map_some, h m hm]
  · rfl

theorem wrappers_modifyManager (ref' : ManagerRef) :
    (w.modifyManager ref f).wrappers ref' =
      if ref' = ref then (((w.managers.get? ref).bind fun m => (f m).guard).map Guard.wrappers).getD []
      else w.wrappers ref' := by
  unfold wrappers
  rw [get?_modifyManager]
  split
  · cases w.managers.get? ref <;> rfl
  · rfl

end ModifyManager

namespace SameGuards

variable {w w' w'' : World}

theorem refl (w : World) : SameGuards w w := ⟨fun _ => rfl, fun _ => rfl⟩

theorem trans (h : SameGuards w w') (h' : SameGuards w' w'') : SameGuards w w'' :=
  ⟨fun ref => (h'.switches ref).trans (h.switches ref),
    fun ref => (h'.wrappers ref).trans (h.wrappers ref)⟩

theorem of_managers_eq (h : w'.managers = w.managers) : SameGuards w w' :=
  ⟨fun ref => by rw [switches?, h, ← switches?], fun ref => by rw [World.wrappers, h, ← World.wrappers]⟩

/-- A manager may be changed apart from its guard. -/
theorem modifyManager {ref : ManagerRef} {f : Manager → Manager} (hf : ∀ m, (f m).guard = m.guard) :
    SameGuards w (w.modifyManager ref f) where
  switches := switches?_modifyManager fun m _ => by rw [hf]
  wrappers ref' := by
    rw [wrappers_modifyManager]
    split
    · rename_i heq
      simp only [hf, heq]
      rfl
    · rfl

end SameGuards

/-! ## Calls, loans and returns -/

section Steps

variable {w w' : World} {ref : ManagerRef} {id : String} {options : Options} {engine : EngineRef}
  {handle : Handle}

theorem sameGuards_counted (handle : Handle) (call : EngineCall) (w : World) :
    SameGuards w (counted handle call w) := by
  cases handle with
  | direct engine => exact .refl w
  | wrapped serial manager engine =>
      refine ⟨switches?_modifyManager fun m _ => ?_, fun ref' => ?_⟩
      · cases m.guard with
        | none => rfl
        | some guard => simp [Faults.switches_count]
      · unfold counted
        rw [wrappers_modifyManager]
        split
        · rename_i heq
          rw [heq, World.wrappers]
          cases w.managers.get? manager with
          | none => rfl
          | some m => cases hguard : m.guard <;> simp [hguard]
        · rfl

theorem LendsEngine.sameGuards (h : LendsEngine w ref id options engine w') : SameGuards w w' := by
  cases h with
  | again => exact .modifyManager fun _ => rfl
  | @first m e disk =>
      have hadded : SameGuards w (addEngine { w with disk } e).2 := .of_managers_eq rfl
      exact hadded.trans (.modifyManager fun _ => rfl)

/-- A loan adds the wrapper that is lent. -/
theorem LendsHandle.guards (h : LendsHandle w ref id options handle w') :
    (∀ ref', w'.switches? ref' = w.switches? ref') ∧
      ∀ ref', w'.wrappers ref' =
        w.wrappers ref' ++ if ref' = ref then handle.wrapper?.toList else [] := by
  cases h with
  | direct hlends =>
      have hguards := hlends.sameGuards
      refine ⟨hguards.switches, fun ref' => ?_⟩
      rw [hguards.wrappers]
      simp [Handle.wrapper?]
  | @wrapped m guard engine w₁ hlends hm hguard =>
      have hguards : SameGuards w { w₁ with next := w₁.next + 1 } :=
        hlends.sameGuards.trans (.of_managers_eq rfl)
      refine ⟨fun ref' => ?_, fun ref' => ?_⟩
      · rw [← hguards.switches]
        refine switches?_modifyManager (fun m' _ => ?_) ref'
        cases m'.guard <;> rfl
      · rw [← hguards.wrappers, wrap, wrappers_modifyManager]
        have hm' : ({ w₁ with next := w₁.next + 1 } : World).managers.get? ref = some m := hm
        by_cases heq : ref' = ref
        · rw [if_pos heq, if_pos heq, heq, World.wrappers, hm']
          simp [hguard, Handle.wrapper?]
        · simp [heq]

theorem ReturnsEngine.sameGuards (h : ReturnsEngine w ref id engine w') : SameGuards w w' := by
  cases h with
  | fewer => exact .modifyManager fun _ => rfl
  | last =>
      have herased : SameGuards w (w.modifyManager ref fun m => { m with loans := m.loans.erase id }) :=
        .modifyManager fun _ => rfl
      exact herased.trans (.of_managers_eq (ways_closeEngine _ engine).2.2.1)

/-- The world in which a manager has taken back the wrapper that a handle is. -/
def unwrapped (ref : ManagerRef) (handle : Handle) (w : World) : World :=
  match handle with
  | .direct _ => w
  | .wrapped serial _ engine => w.modifyManager ref fun m =>
      { m with guard := m.guard.map fun guard =>
          { guard with wrappers := guard.wrappers.erase (serial, engine) } }

theorem sameBooks_unwrapped (ref : ManagerRef) (handle : Handle) (w : World) :
    SameBooks w (unwrapped ref handle w) := by
  cases handle with
  | direct engine => exact .refl w
  | wrapped serial manager engine =>
      exact sameBooks_modifyManager (fun _ => ⟨rfl, rfl, rfl⟩) fun _ _ => rfl

/-- The wrapper is taken off. -/
theorem guards_unwrapped (ref : ManagerRef) (handle : Handle) (w : World) :
    (∀ ref', (unwrapped ref handle w).switches? ref' = w.switches? ref') ∧
      ∀ ref', (unwrapped ref handle w).wrappers ref' =
        if ref' = ref then handle.wrapper?.elim (w.wrappers ref') (w.wrappers ref').erase
        else w.wrappers ref' := by
  cases handle with
  | direct engine =>
      refine ⟨fun _ => rfl, fun ref' => ?_⟩
      split <;> rfl
  | wrapped serial manager engine =>
      refine ⟨switches?_modifyManager fun m _ => ?_, fun ref' => ?_⟩
      · cases m.guard <;> rfl
      · rw [unwrapped, wrappers_modifyManager]
        split
        · rename_i heq
          rw [heq, Handle.wrapper?, Option.elim_some, World.wrappers]
          cases w.managers.get? ref with
          | none => rfl
          | some m => cases hguard : m.guard <;> simp [hguard]
        · rfl

/-- A manager takes back what it has lent, as one loan less. -/
theorem ensures_reclaim_accepted (haccepts : Accepts w ref handle) {e : Engine} {loan : Loan}
    (he : w.engines.get? handle.engine = some e) (hloan : w.loan? ref e.id = some loan)
    (hengine : loan.engine = handle.engine) :
    (reclaim ref handle).Ensures w
      (fun _ w' => ReturnsEngine (unwrapped ref handle w) ref e.id handle.engine w')
      fun _ _ => False := by
  obtain ⟨m, hm, haccept⟩ := haccepts
  have hlent {w₁ : World} (hw₁ : w₁.loan? ref e.id = some loan)
      (hno : NotLent w₁ ref e.id handle.engine) : False := by
    obtain ⟨m₁, hm₁, hloan₁⟩ := Option.bind_eq_some_iff.mp hw₁
    exact hno m₁ loan hm₁ hloan₁ hengine
  refine Ensures.bind (P := fun m' w' => w' = w ∧ m' = m)
    ((ensures_managerOf ref w).weaken ?_ ?_) ?_
  · rintro m' w' ⟨rfl, hm'⟩
    rw [hm] at hm'
    cases hm'
    exact ⟨rfl, rfl⟩
  · rintro err w' ⟨-, hnone⟩
    rw [hm] at hnone
    cases hnone
  rintro m' w' ⟨rfl, rfl⟩
  refine Ensures.bind (P := fun e' w'' => w'' = w' ∧ e' = e)
    ((ensures_engineOf handle w').weaken ?_ ?_) ?_
  · rintro e' w'' ⟨rfl, he'⟩
    rw [he] at he'
    cases he'
    exact ⟨rfl, rfl⟩
  · rintro err w'' ⟨-, hnone⟩
    rw [he] at hnone
    cases hnone
  rintro e' w'' ⟨rfl, rfl⟩
  split
  · exact (ensures_reclaimEngine ref _ _ _).weaken (fun _ _ h => h) fun _ _ h => hlent hloan h.2
  · rename_i guard serial lender engine hguard
    have hmine : lender = ref ∧ guard.wrappers.contains (serial, engine) = true := by
      simpa [Manager.accepts, hguard] using haccept
    rw [if_pos hmine]
    have hunwrapped : unwrapped ref (.wrapped serial lender engine) w'' =
        w''.modifyManager ref fun m =>
          { m with guard := some { guard with wrappers := guard.wrappers.erase (serial, engine) } } :=
      modifyManager_congr fun m₁ hm₁ => by
        rw [hm] at hm₁
        cases hm₁
        rw [hguard]
        rfl
    refine Ensures.bind (P := fun _ w₁ => w₁ = unwrapped ref (.wrapped serial lender engine) w'')
      (ensures_modify hunwrapped.symm) ?_
    rintro - w₁ rfl
    refine (ensures_reclaimEngine ref _ _ _).weaken (fun _ _ h => h) fun _ _ h => hlent ?_ h.2
    rw [(sameBooks_unwrapped ref _ w'').loans]
    exact hloan
  · rename_i hdirect hwrapped
    exfalso
    unfold Manager.accepts at haccept
    split at haccept
    · rename_i hguard
      exact hdirect _ hguard rfl
    · rename_i hguard
      exact hwrapped _ _ _ _ hguard rfl
    · cases haccept

end Steps

/-! ## What is held -/

/-- What is held is held by a name, by an entry or a wrapper of a manager that is held, or by a depot. -/
theorem isEngineHeld_iff_books {w : World} {r : EngineRef} :
    w.isEngineHeld r = true ↔
      (∃ name handle, w.handleNames.get? name = some handle ∧ handle.engine = r) ∨
        (∃ ref, w.isManagerHeld ref = true ∧
          ((∃ id loan, w.loan? ref id = some loan ∧ loan.engine = r) ∨
            ∃ serial, (serial, r) ∈ w.wrappers ref)) ∨
        ∃ name d handle, w.depots.get? name = some d ∧ d.handle? = some handle ∧
          handle.engine = r := by
  rw [isEngineHeld_iff]
  refine or_congr Iff.rfl (or_congr (exists_congr fun ref => ?_) Iff.rfl)
  cases hm : w.managers.get? ref with
  | none => simp [loan?, wrappers, hm]
  | some m => cases hguard : m.guard <;> simp [loan?, wrappers, hm, hguard, Manager.holds_iff]

/-- Under the same names the books and the wrappers decide what is held. -/
theorem isEngineHeld_congr {w w' : World} (hnames : SameNames w w')
    (hloans : ∀ ref id, w'.loan? ref id = w.loan? ref id)
    (hwrappers : ∀ ref wrapper, wrapper ∈ w'.wrappers ref ↔ wrapper ∈ w.wrappers ref)
    (r : EngineRef) : w'.isEngineHeld r = w.isEngineHeld r := by
  rw [Bool.eq_iff_iff, isEngineHeld_iff_books, isEngineHeld_iff_books]
  simp only [hnames.handleNames, hnames.depots, hnames.isManagerHeld, hloans, hwrappers]

end World

end ObjectStore
