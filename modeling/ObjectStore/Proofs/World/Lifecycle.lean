import ObjectStore.Proofs.Depot.Failures
import ObjectStore.Proofs.World.Closed
import ObjectStore.Proofs.World.Outcomes
import ObjectStore.Proofs.World.Sharing

/-!
# The life of depots that share a manager

Depots are made, opened, closed and dropped in any order, and each of them is asked for whatever callers
like in between. As long as their manager is asked by nobody else but by pushes, it counts the depots that
are ready. So none of them finds its engine closed by the others, and one that is not ready can be opened
exactly if it can share a store or open it.

Main statement: `upkeep_of_shared`.
-/

namespace ObjectStore.World

open ObjectStore.Action

/-! ## Requests -/

/-- What callers ask of a depot. -/
inductive Request where
  /-- Change its objects. -/
  | edit (change : Access.Edit)
  | get (key : String)
  | getSummary (key : String)
  | getAll (front : String)
  | sync (devices : List String)

/-- What a composite request calls its steps. -/
def Request.steps : Request → List String
  | .edit change => change.steps
  | .getSummary key => [s!"get {key}: "]
  | _ => []

/-- Asks something of a depot, and keeps of the answer whether it is one. -/
def ask (d : Depot) : Request → Action World DepotError Unit
  | .edit change => withObjects d fun kv codec => change.act kv codec
  | .get key => do
    let _ ← withObjects d fun kv codec => Access.get kv codec key
  | .getSummary key => do
    let _ ← withObjects d fun kv codec => Access.getSummary kv codec key
  | .getAll front => do
    let _ ← withObjects d fun kv codec => Access.getAll kv codec front
  | .sync devices => do
    let _ ← syncDepot d devices

section Requests

variable {w w' : World} {d : Depot} {handle : Handle}

/-- A depot that is not ready refuses whatever it is asked for, and nothing happens. -/
theorem ask_of_not_ready (h : d.state ≠ .ready) (r : Request) (w : World) :
    (ask d r).exec w = (.error (.notReady d.state), w) := by
  cases hphase : d.phase with
  | ready handle => exact absurd (state_of_phase hphase) h
  | uninitialized => cases r <;> simp [ask, withObjects, syncDepot, hphase]
  | closed => cases r <;> simp [ask, withObjects, syncDepot, hphase]

/-- The engine behind a handle is open. -/
def IsOpen (handle : Handle) (w : World) : Prop :=
  ∃ e, w.engines.get? handle.engine = some e ∧ e.isClosed = false

theorem IsOpen.steady (h : IsOpen handle w) (hw : Steady w w') : IsOpen handle w' := by
  obtain ⟨e, he, hopen⟩ := h
  obtain ⟨e', he', -, -, hsame⟩ := hw.engines he
  exact ⟨e', he', hsame.trans hopen⟩

/-- An engine that is open stays open and never refuses with `closed`. -/
theorem refusesOnly_of_open (handle : Handle) :
    (keyValue handle).RefusesOnly (IsOpen handle) (· ≠ .closed) := by
  have hcalls (w : World) := keptByCalls_steady w
  have hstart (w : World) : Steady w w ∧ SameNames w w := ⟨.refl w, .refl w⟩
  have hensures {α : Type} {call : Action World StorageError α} {w : World}
      (hkept : IsOpen handle (call.exec w).2) (hne : (call.exec w).1 ≠ .error .closed) :
      call.Ensures w (fun _ w' => IsOpen handle w') fun cause w' => cause ≠ .closed ∧ IsOpen handle w' := by
    unfold Ensures
    rcases hexec : call.exec w with ⟨err | a, w'⟩
    · rw [hexec] at hkept hne
      exact ⟨fun heq => hne (by rw [heq]), hkept⟩
    · rw [hexec] at hkept
      exact hkept
  have hnever {w : World} (h : IsOpen handle w) : NeverClosed handle w := by
    obtain ⟨e, he, hopen⟩ := h
    exact neverClosed_of_open he hopen
  constructor
  case put =>
    exact fun es h => hensures (h.steady ((hcalls _).put (hstart _) handle es).1) ((hnever h).put es)
  case delete =>
    exact fun keys h =>
      hensures (h.steady ((hcalls _).delete (hstart _) handle keys).1) ((hnever h).delete keys)
  case scan =>
    exact fun front h =>
      hensures (h.steady ((hcalls _).scan (hstart _) handle front).1) ((hnever h).scan front)

/-- A depot whose engine is open fails over what it is given, over what is stored, or over what the engine
says while it is open. -/
theorem causedBy_of_ask (hphase : d.phase = .ready handle) (hopen : IsOpen handle w) (r : Request)
    {err : DepotError} (hexec : (ask d r).exec w = (.error err, w')) :
    err.CausedBy (· ≠ .closed) r.steps := by
  have hkv := refusesOnly_of_open handle
  have hrefuses {act : Action World DepotError Unit}
      (h : Access.RefusesAs (IsOpen handle) (· ≠ .closed) r.steps act)
      (hact : act.exec w = (.error err, w')) : err.CausedBy (· ≠ .closed) r.steps :=
    ((ensures_iff.mp (h hopen)).2 err w' hact).1
  have hforget {α : Type} {act : Action World DepotError α}
      (h : Access.RefusesAs (IsOpen handle) (· ≠ .closed) r.steps act) :
      Access.RefusesAs (IsOpen handle) (· ≠ .closed) r.steps (do let _ ← act) :=
    h.bind fun _ => Access.refusesAs_pure ()
  cases r with
  | edit change =>
      simp only [ask, withObjects_of_phase hphase] at hexec
      exact hrefuses (Access.refusesAs_of_act hkv d.codec change) hexec
  | get key =>
      simp only [ask, withObjects_of_phase hphase] at hexec
      exact hrefuses (hforget (Access.refusesAs_get hkv d.codec key)) hexec
  | getSummary key =>
      simp only [ask, withObjects_of_phase hphase] at hexec
      exact hrefuses (hforget (Access.refusesAs_getSummary hkv d.codec key)) hexec
  | getAll front =>
      simp only [ask, withObjects_of_phase hphase] at hexec
      exact hrefuses (hforget (Access.refusesAs_getAll hkv d.codec front)) hexec
  | sync devices =>
      obtain ⟨e, he, hopen⟩ := hopen
      have hnever := (neverClosed_of_open he hopen).sync devices .pushOnly
      simp only [ask, syncDepot, hphase, exec_bind, exec_mapError] at hexec
      rcases hsync : (sync handle devices .pushOnly).exec w with ⟨cause | outcome, w₁⟩
      · rw [hsync] at hexec hnever
        cases hexec
        exact .storage fun heq => hnever (by rw [heq])
      · rw [hsync] at hexec
        cases hexec

end Requests

/-! ## Depots that are ready -/

/-- A depot of a manager and a store that is ready. -/
def IsReady (w : World) (ref : ManagerRef) (id : String) (d : Depot) : Prop :=
  (∃ name, w.depots.get? name = some d) ∧ d.manager = ref ∧ d.id = id ∧ d.state = .ready

/-- How many depots of a manager and a store are ready. -/
def readyCount (w : World) (ref : ManagerRef) (id : String) : Nat :=
  w.depots.values.countP fun d => d.manager == ref && d.id == id && d.state == .ready

section Counts

variable {ref : ManagerRef} {w : World} {id : String} {d d' : Depot}

theorem countP_shares (w : World) (ref : ManagerRef) (id : String) :
    ((w.shares ref).countP fun s => s.id == id) = w.readyCount ref id := by
  unfold shares readyCount
  rw [List.countP_filterMap]
  refine List.countP_congr fun d _ => ?_
  unfold Depot.share? Depot.handle? Depot.state
  by_cases hmanager : d.manager = ref
  · cases d.phase <;> simp [hmanager]
  · simp [hmanager]

theorem IsReady.share (h : w.IsReady ref id d) :
    ∃ handle, d.phase = .ready handle ∧
      { id := d.id, options := d.config.options, handle } ∈ w.shares ref := by
  obtain ⟨⟨name, hd⟩, rfl, -, hstate⟩ := h
  obtain ⟨handle, hphase⟩ := exists_handle_of_state hstate
  exact ⟨handle, hphase,
    List.mem_filterMap.mpr ⟨d, SortedMap.mem_values_iff.mpr ⟨name, hd⟩, Depot.share?_of_ready hphase⟩⟩

namespace Covers

/-- What is on loan are the stores of the depots that are ready. -/
theorem isSome_loan?_iff (h : Covers ref (w.shares ref) w) (id : String) :
    (w.loan? ref id).isSome ↔ ∃ d, w.IsReady ref id d := by
  constructor
  · intro hsome
    obtain ⟨loan, hloan⟩ := Option.isSome_iff_exists.mp hsome
    have hcount := h.counted id
    rw [handles_of_loan hloan] at hcount
    have hpos := (h.booked.lent hloan).1
    rw [hcount, List.countP_pos_iff] at hpos
    obtain ⟨s, hs, hid⟩ := hpos
    obtain ⟨d, hd, hshare⟩ := List.mem_filterMap.mp hs
    obtain ⟨name, hname⟩ := SortedMap.mem_values_iff.mp hd
    unfold Depot.share? at hshare
    split at hshare
    · rename_i hmanager
      obtain ⟨handle, hhandle, rfl⟩ := Option.map_eq_some_iff.mp hshare
      exact ⟨d, ⟨name, hname⟩, hmanager, by simpa using hid,
        state_of_phase (Depot.handle?_eq_some_iff.mp hhandle)⟩
    · cases hshare
  · rintro ⟨d, hready⟩
    obtain ⟨handle, -, hs⟩ := hready.share
    obtain ⟨-, loan, -, hloan, -⟩ := h.lent _ hs
    obtain ⟨-, -, rfl, -⟩ := hready
    exact Option.isSome_of_eq_some hloan

/-- The engine of a depot that is ready is open, and it is the one on loan. -/
theorem engine_of_ready (h : Covers ref (w.shares ref) w) (hd : w.IsReady ref id d) :
    ∃ handle loan e, d.phase = .ready handle ∧ w.loan? ref id = some loan ∧
      loan.engine = handle.engine ∧ w.engines.get? loan.engine = some e ∧ e.isClosed = false ∧
        e.options.sameLayout d.config.options = true := by
  obtain ⟨handle, hphase, hs⟩ := hd.share
  obtain ⟨-, loan, e, hloan, hengine, he, hlayout⟩ := h.lent _ hs
  obtain ⟨-, e', he', hopen⟩ := h.alive _ loan hloan
  rw [he] at he'
  cases he'
  obtain ⟨-, -, rfl, -⟩ := hd
  exact ⟨handle, loan, e, hphase, hloan, hengine, he, hopen, hlayout⟩

theorem not_ready_of_loan? (h : Covers ref (w.shares ref) w) (hnone : w.loan? ref id = none) (d : Depot) :
    ¬ w.IsReady ref id d := by
  intro hd
  have hsome := (h.isSome_loan?_iff id).mpr ⟨d, hd⟩
  rw [hnone] at hsome
  cases hsome

end Covers

end Counts

/-! ## Opening -/

/-- A store can be had from its manager: a depot that is ready has it open with the same layout, or no
depot has it open and it can be opened. -/
inductive Available (w : World) (d : Depot) : Prop where
  | joins {d' : Depot} : w.IsReady d.manager d.id d' →
      d'.config.options.sameLayout d.config.options = true → Available w d
  | memory : (∀ d', ¬ w.IsReady d.manager d.id d') → d.config.options.encrypted = false →
      d.config.options.memoryOnly = true → Available w d
  | directory {m : Manager} {e : Engine} {disk : Disk} :
      (∀ d', ¬ w.IsReady d.manager d.id d') → d.config.options.encrypted = false →
      d.config.options.memoryOnly = false → w.managers.get? d.manager = some m →
      Engine.openDirectory (Manager.storeDirectory m.app m.user d.config.base d.id d.config.options) d.id
        d.config.options m.networked w.isDirectoryHeld w.disk = (.ok e, disk) →
      Available w d

section Opening

variable {w w' : World} {d : Depot}

theorem sameLayout_congr {a b : Options} (h : a.sameLayout b = true) (c : Options) :
    a.sameLayout c = b.sameLayout c := by
  obtain ⟨hmemory, hdirectory, hencrypted, hsecurity⟩ := sameLayout_iff.mp h
  unfold Options.sameLayout
  rw [hmemory, hdirectory, hencrypted, hsecurity]

/-- What a manager is told before it lends to a depot. -/
def based (d : Depot) (w : World) : World :=
  w.modifyManager d.manager fun m => { m with base := some d.config.base }

theorem exec_start (h : d.state ≠ .ready) (w : World) :
    (start d).exec w =
      match (lend d.manager d.id d.config.options).exec (based d w) with
      | (.ok handle, w') => (.ok { d with phase := .ready handle }, w')
      | (.error err, w') => (.error (.storage err), w') := by
  have hphase (handle : Handle) : d.phase ≠ .ready handle := fun heq => h (state_of_phase heq)
  unfold start
  split
  · rename_i handle heq
    exact absurd heq (hphase handle)
  · simp only [exec_bind, exec_modify, exec_mapError]
    unfold based
    rcases (lend d.manager d.id d.config.options).exec _ with ⟨err | handle, w'⟩ <;> rfl

theorem loan?_based (d : Depot) (w : World) (ref : ManagerRef) (id : String) :
    (based d w).loan? ref id = w.loan? ref id :=
  (steady_modifyManager fun _ => rfl : Steady w (based d w)).loans ref id

theorem engines_based (d : Depot) (w : World) : (based d w).engines = w.engines :=
  engines_modifyManager _ _ _

theorem disk_based (d : Depot) (w : World) : (based d w).disk = w.disk :=
  disk_modifyManager _ _ _

theorem next_based (d : Depot) (w : World) : (based d w).next = w.next :=
  next_modifyManager _ _ _

theorem get?_based (d : Depot) (w : World) :
    (based d w).managers.get? d.manager =
      (w.managers.get? d.manager).map fun m => { m with base := some d.config.base } := by
  rw [based, get?_modifyManager, if_pos rfl]

theorem get?_loans_based {m : Manager} (hm : (based d w).managers.get? d.manager = some m) :
    m.loans.get? d.id = w.loan? d.manager d.id := by
  rw [← loan?_based d w, loan?, hm, Option.bind_some]

/-- Who has which directory open does not depend on what the manager is told. -/
theorem isDirectoryHeld_based (d : Depot) (w : World) :
    (based d w).isDirectoryHeld = w.isDirectoryHeld := by
  funext place
  unfold isDirectoryHeld
  rw [engines_based]
  have hguards : SameGuards w (based d w) := .modifyManager fun _ => rfl
  have hheld (r : EngineRef) : (based d w).isEngineHeld r = w.isEngineHeld r :=
    isEngineHeld_congr (sameNames_modifyManager _ _ _) (loan?_based d w)
      (fun ref wrapper => iff_of_eq (congrArg (wrapper ∈ ·) (hguards.wrappers ref))) r
  simp only [hheld]

theorem Covers.available_of_lends (h : Covers d.manager (w.shares d.manager) w) {handle : Handle}
    (hlends : LendsHandle (based d w) d.manager d.id d.config.options handle w')
    (hpermits : Permits (based d w) d.manager d.id d.config.options) : Available w d := by
  have hengine : ∃ engine w'', LendsEngine (based d w) d.manager d.id d.config.options engine w'' := by
    cases hlends with
    | direct hlends => exact ⟨_, _, hlends⟩
    | wrapped hlends => exact ⟨_, _, hlends⟩
  obtain ⟨engine, w'', hengine⟩ := hengine
  cases hengine with
  | @again m loan e hm hloan he hlayout =>
      rw [get?_loans_based hm] at hloan
      rw [engines_based] at he
      obtain ⟨d', hd'⟩ := (h.isSome_loan?_iff d.id).mp (Option.isSome_of_eq_some hloan)
      obtain ⟨handle', loan', e', -, hloan', -, he', -, hlayout'⟩ := h.engine_of_ready hd'
      rw [hloan] at hloan'
      cases hloan'
      rw [he] at he'
      cases he'
      exact .joins hd' ((sameLayout_congr hlayout' _).symm.trans hlayout)
  | @first m e disk hm hloan hopens =>
      have hplain := hpermits.plain m hm hloan
      rw [get?_loans_based hm] at hloan
      have hnone := h.not_ready_of_loan? hloan
      rw [get?_based] at hm
      obtain ⟨m₀, hm₀, rfl⟩ := Option.map_eq_some_iff.mp hm
      cases hopens with
      | memory hmemory => exact .memory hnone hplain hmemory
      | directory hmemory hbase hopen =>
          cases hbase
          rw [isDirectoryHeld_based, disk_based] at hopen
          exact .directory hnone hplain hmemory hm₀ hopen

theorem Covers.not_available_of_denies (h : Covers d.manager (w.shares d.manager) w)
    (hid : Manager.checkId d.id = .ok ())
    (hdenies : Denies (based d w) d.manager d.id d.config.options w') : ¬ Available w d := by
  intro havailable
  cases hdenies with
  | unknown hm =>
      have hthere := h.there
      rw [get?_based, Option.map_eq_none_iff] at hm
      rw [guarded?, hm] at hthere
      cases hthere
  | name herr =>
      rw [hid] at herr
      cases herr
  | lost hm hloan he =>
      rw [get?_loans_based hm] at hloan
      obtain ⟨-, e, he', -⟩ := h.booked.lent hloan
      rw [engines_based, he'] at he
      cases he
  | @layout m loan e hm hloan he hlayout =>
      rw [get?_loans_based hm] at hloan
      rw [engines_based] at he
      have hready := (h.isSome_loan?_iff d.id).mp (Option.isSome_of_eq_some hloan)
      cases havailable with
      | joins hd' hsame =>
          obtain ⟨handle', loan', e', -, hloan', -, he', -, hlayout'⟩ := h.engine_of_ready hd'
          rw [hloan] at hloan'
          cases hloan'
          rw [he] at he'
          cases he'
          rw [sameLayout_congr hlayout', hsame] at hlayout
          cases hlayout
      | memory hnone => exact hready.elim hnone
      | directory hnone => exact hready.elim hnone
  | @unopened m _ hm hloan hunopened =>
      rw [get?_loans_based hm] at hloan
      have hnone := h.not_ready_of_loan? hloan
      rw [get?_based] at hm
      obtain ⟨m₀, hm₀, rfl⟩ := Option.map_eq_some_iff.mp hm
      cases havailable with
      | joins hd' => exact hnone _ hd'
      | memory _ hplain hmemory =>
          cases hunopened with
          | encrypted hencrypted => rw [hplain] at hencrypted; cases hencrypted
          | base hdisk => rw [hmemory] at hdisk; cases hdisk
          | directory hdisk => rw [hmemory] at hdisk; cases hdisk
      | directory _ hplain hmemory hm' hopen =>
          rw [hm₀] at hm'
          cases hm'
          cases hunopened with
          | encrypted hencrypted => rw [hplain] at hencrypted; cases hencrypted
          | base _ hbase => cases hbase
          | directory _ hbase hopen' =>
              cases hbase
              rw [isDirectoryHeld_based, disk_based, hopen] at hopen'
              cases hopen'

/-- A depot that is not ready can be opened exactly if its id passes and its store can be had. -/
theorem Covers.start_ok_iff (h : Covers d.manager (w.shares d.manager) w) (hstate : d.state ≠ .ready) :
    (∃ p w', (start d).exec w = (.ok p, w')) ↔ Manager.checkId d.id = .ok () ∧ Available w d := by
  have hlend := ensures_lend_or_denies d.manager d.id d.config.options (based d w)
  unfold Ensures at hlend
  rw [exec_start hstate]
  rcases hexec : (lend d.manager d.id d.config.options).exec (based d w) with ⟨err | handle, w'⟩
  · rw [hexec] at hlend
    simp only [Prod.mk.injEq, reduceCtorEq, false_and, exists_false, false_iff, not_and]
    exact fun hid => h.not_available_of_denies hid hlend
  · rw [hexec] at hlend
    obtain ⟨hlends, hpermits⟩ := hlend
    exact ⟨fun _ => ⟨hpermits.name, h.available_of_lends hlends hpermits⟩, fun _ => ⟨_, _, rfl⟩⟩

end Opening

/-! ## Every run -/

/-- Whatever happens in turn, as long as nobody but depots and pushes deals with the manager. -/
inductive Shared (ref : ManagerRef) (w : World) : World → Prop where
  | nil : Shared ref w w
  | step {w' : World} (event : Event) : Shared ref w w' → w'.Sole ref event →
      Shared ref w (happen w' event)

/-- How a named depot stands, and what becomes of it when it is opened or closed. -/
structure Lives (name : String) (d : Depot) (w : World) : Prop where
  /-- A depot that is ready never says that it is not, and nothing that it tells of its engine says that
  the engine is closed. -/
  serves : d.state = .ready → ∀ r err w', (ask d r).exec w = (.error err, w') →
    err.status ≠ .notReady ∧ err.CausedBy (· ≠ .closed) r.steps
  refuses : d.state ≠ .ready → ∀ r, (ask d r).exec w = (.error (.notReady d.state), w)
  /-- What is open already stays as it is. -/
  again : d.state = .ready → (start d).exec w = (.ok d, w) ∧ happen w (.call (.start name)) = w
  opens_iff : d.state ≠ .ready →
    ((∃ p w', (start d).exec w = (.ok p, w')) ↔ Manager.checkId d.id = .ok () ∧ Available w d)
  opened : ∀ p w', (start d).exec w = (.ok p, w') →
    p.state = .ready ∧ p = { d with phase := p.phase } ∧
      (happen w (.call (.start name))).depots = w.depots.insert name p
  denied : ∀ err w', (start d).exec w = (.error err, w') →
    (happen w (.call (.start name))).depots = w.depots ∧
      ∀ ref id, (happen w (.call (.start name))).loan? ref id = w.loan? ref id
  /-- What was closed is opened like what was never open. -/
  reopens : d.state = .closed → (start d).exec w = (start { d with phase := .uninitialized }).exec w
  closes : (happen w (.call (.stop name))).depots = w.depots.insert name { d with phase := .closed }
  /-- What is closed already stays as it is. -/
  closed : d.state = .closed → happen w (.call (.stop name)) = w

/-- What can be said of a manager that only depots and pushes deal with. -/
structure Upkeep (ref : ManagerRef) (w : World) : Prop where
  /-- Under each id it counts the depots that are ready. -/
  counted : ∀ id, w.handles ref id = w.readyCount ref id
  lent_iff : ∀ id, (w.loan? ref id).isSome ↔ ∃ d, w.IsReady ref id d
  lives : ∀ name d, w.depots.get? name = some d → d.manager = ref → Lives name d w

section Runs

variable {ref : ManagerRef} {w w' : World} {name : String} {d : Depot}

theorem Shared.covers (h : Shared ref w w') (haccounted : Accounted w)
    (hcovers : Covers ref (w.shares ref) w) : Accounted w' ∧ Covers ref (w'.shares ref) w' := by
  induction h with
  | nil => exact ⟨haccounted, hcovers⟩
  | step event _ hsole ih => exact ⟨accounted_happen ih.1 event, covers_happen ih.1 ih.2 hsole⟩

/-- A manager that is new has no depots and nothing on loan. -/
theorem covers_addManager (h : Accounted w) (hknown : Known w) (name app user : String)
    (base : Option String) (networked guarded : Bool) :
    Covers w.next ((happen w (.call (.addManager name app user base networked guarded))).shares w.next)
      (happen w (.call (.addManager name app user base networked guarded))) := by
  have hm : (happen w (.call (.addManager name app user base networked guarded))).managers.get? w.next =
      some { app, user, base, networked, guard := if guarded then some {} else none } := by
    show (w.managers.insert w.next _).get? w.next = _
    rw [SortedMap.get?_insert, if_pos rfl]
  have hloan (id : String) :
      (happen w (.call (.addManager name app user base networked guarded))).loan? w.next id = none := by
    rw [loan?, hm]
    rfl
  have hshares :
      (happen w (.call (.addManager name app user base networked guarded))).shares w.next = [] := by
    refine List.filterMap_eq_nil_iff.mpr fun d hd => Depot.share?_of_ne ?_
    obtain ⟨name', hd⟩ := SortedMap.mem_values_iff.mp hd
    exact Nat.ne_of_lt (hknown.depots hd)
  have haccounted := accounted_happen h (.call (.addManager name app user base networked guarded))
  rw [hshares]
  constructor
  case booked => exact haccounted.booked
  case there =>
    rw [guarded?, hm]
    rfl
  case alive =>
    intro id loan hsome
    rw [hloan] at hsome
    cases hsome
  case counted =>
    intro id
    rw [handles, hloan]
    rfl
  case lent => exact fun _ hs => (List.not_mem_nil hs).elim
  case distinct => exact List.nodup_nil
  case older => exact fun _ hs => (List.not_mem_nil hs).elim
  case strangers =>
    intro name' handle hname
    refine ⟨haccounted.handles hname, ?_⟩
    rintro ⟨id, loan, hsome, -⟩
    rw [hloan] at hsome
    cases hsome

theorem happen_start (hd : w.depots.get? name = some d) :
    happen w (.call (.start name)) =
      match (start d).exec w with
      | (.ok p, w') => w'.setDepot name p
      | (.error _, w') => w' := by
  simp only [happen, step, onDepot, hd]
  unfold startNamed
  rw [exec_bind]
  rcases (start d).exec w with ⟨err | p, w'⟩ <;> rfl

theorem happen_stop (hd : w.depots.get? name = some d) :
    happen w (.call (.stop name)) = ((stop d).run w).2.setDepot name { d with phase := .closed } := by
  simp only [happen, step, onDepot, hd]
  rw [← stop_fst d w]
  rfl

theorem setDepot_of_get? (hd : w.depots.get? name = some d) : w.setDepot name d = w := by
  unfold setDepot
  rw [SortedMap.insert_of_get? hd]

/-- A depot that is opened is the same apart from its phase, and one that is not changes no books. -/
theorem ensures_start_upkeep (d : Depot) (w : World) :
    (start d).Ensures w (fun p w' => p.state = .ready ∧ p = { d with phase := p.phase } ∧ SameNames w w')
      fun _ w' => SameNames w w' ∧ ∀ ref id, w'.loan? ref id = w.loan? ref id := by
  by_cases hstate : d.state = .ready
  · obtain ⟨handle, hphase⟩ := exists_handle_of_state hstate
    unfold start
    rw [hphase]
    exact ensures_pure ⟨hstate, rfl, .refl w⟩
  · have hnames := sameNames_lend d.manager d.id d.config.options (based d w)
    have hlend := hnames.and (ensures_lend d.manager d.id d.config.options (based d w))
    have hbased : SameNames w (based d w) := sameNames_modifyManager _ _ _
    unfold Ensures at hlend ⊢
    rw [exec_start hstate]
    rcases hexec : (lend d.manager d.id d.config.options).exec (based d w) with ⟨err | handle, w'⟩
    · rw [hexec] at hlend
      obtain ⟨hkept, hrefused⟩ := hlend
      exact ⟨hbased.trans hkept, fun ref id =>
        (hrefused.steady.1.loans ref id).trans (loan?_based d w ref id)⟩
    · rw [hexec] at hlend
      exact ⟨rfl, rfl, hbased.trans hlend.1⟩

theorem Covers.lives (h : Covers d.manager (w.shares d.manager) w) (hd : w.depots.get? name = some d) :
    Lives name d w := by
  have hready (hstate : d.state = .ready) : (start d).exec w = (.ok d, w) := by
    obtain ⟨handle, hphase⟩ := exists_handle_of_state hstate
    unfold start
    rw [hphase]
    rfl
  have hstart := ensures_iff.mp (ensures_start_upkeep d w)
  constructor
  case serves =>
    intro hstate r err w' hexec
    obtain ⟨handle, loan, e, hphase, -, hengine, he, hopen, -⟩ :=
      h.engine_of_ready ⟨⟨name, hd⟩, rfl, rfl, hstate⟩
    rw [hengine] at he
    have hcaused := causedBy_of_ask hphase ⟨e, he, hopen⟩ r hexec
    exact ⟨hcaused.ne_notReady, hcaused⟩
  case refuses => exact fun hstate r => ask_of_not_ready hstate r w
  case again =>
    intro hstate
    refine ⟨hready hstate, ?_⟩
    rw [happen_start hd, hready hstate]
    exact setDepot_of_get? hd
  case opens_iff => exact h.start_ok_iff
  case opened =>
    intro p w' hexec
    obtain ⟨hstate, hsame, hnames⟩ := hstart.1 p w' hexec
    refine ⟨hstate, hsame, ?_⟩
    rw [happen_start hd, hexec]
    show w'.depots.insert name p = _
    rw [hnames.depots]
  case denied =>
    intro err w' hexec
    obtain ⟨hnames, hloans⟩ := hstart.2 err w' hexec
    rw [happen_start hd, hexec]
    exact ⟨hnames.depots, hloans⟩
  case reopens =>
    intro hstate
    rw [exec_start (by rw [hstate]; exact DepotState.noConfusion), exec_start DepotState.noConfusion]
    rfl
  case closes =>
    rw [happen_stop hd]
    show ((stop d).run w).2.depots.insert name _ = _
    rw [(still_stop d w).2.depots]
  case closed =>
    intro hstate
    have hphase : d.phase = .closed := by
      unfold Depot.state at hstate
      split at hstate
      · cases hstate
      · cases hstate
      · assumption
    have hsame : { d with phase := .closed } = d := by rw [← hphase]
    have hstop : ((stop d).run w).2 = w := by
      unfold stop
      rw [hphase]
      rfl
    rw [happen_stop hd, hstop, hsame]
    exact setDepot_of_get? hd

/-- Whatever has happened before a manager comes, and in every run of depots and pushes that share it: it
counts the depots that are ready, and each depot lives as it should. -/
theorem upkeep_of_shared (disk : Disk) (before : List Event) (name app user : String)
    (base : Option String) (networked guarded : Bool)
    (h : Shared (future { disk } before).next
      (happen (future { disk } before) (.call (.addManager name app user base networked guarded))) w) :
    Upkeep (future { disk } before).next w := by
  have haccounted := accounted_future disk before
  obtain ⟨-, hcovers⟩ := h.covers (accounted_happen haccounted _)
    (covers_addManager haccounted (known_future disk before) name app user base networked guarded)
  constructor
  case counted => exact fun id => (hcovers.counted id).trans (countP_shares w _ id)
  case lent_iff => exact hcovers.isSome_loan?_iff
  case lives =>
    rintro name' d hd hmanager
    rw [← hmanager] at hcovers
    exact hcovers.lives hd

/-- A world with one manager, whose calls are counted and whose engines can reach others. -/
def onlyManager : World :=
  happen (future {} []) (.call (.addManager "m" "app" "user" none true true))

/-- Two depots share a store in memory. One of them is pushed to the device of their own manager, and then
the other is closed. -/
theorem upkeep_of_shared_memory :
    ∃ w, Shared 0 onlyManager w ∧ w.readyCount 0 "s" = 1 ∧
      (w.depots.get? "b").map Depot.state = some .closed ∧ Upkeep 0 w := by
  have hnil : Shared 0 onlyManager onlyManager := .nil
  have hmade := ((hnil.step (.call (.register "device" "m")) trivial).step
    (.call (.addDepot "a" "m" "s" { options := { memoryOnly := true } })) trivial).step
    (.call (.addDepot "b" "m" "s" { options := { memoryOnly := true } })) trivial
  have hopened := (hmade.step (.call (.start "a")) trivial).step (.call (.start "b")) trivial
  have hclosed := (hopened.step (.call (.sync "a" ["device"])) trivial).step (.call (.stop "b")) trivial
  exact ⟨_, hclosed, by decide +kernel, by decide +kernel,
    upkeep_of_shared {} [] "m" "app" "user" none true true hclosed⟩

end Runs

end ObjectStore.World
