import ObjectStore.Proofs.World.Custody

/-!
# What one delivery leaves as it was

A delivery is a loan, a put and a return, or it is denied. Whatever becomes of it, and whatever the disk
and the tables hold, all books, switches and names are afterwards as they were, the same engines and
directories are held, and only the store that the delivery is for may hold something else: its engine
while it is on loan, and otherwise the log of its directory.

Main statements: `delivers_deliver`, that there is no other way for a delivery to go, and
`Delivers.round`.
-/

namespace ObjectStore.World

open ObjectStore.Action
open Engine (logPlace logTable)

/-! ## Where stores lie -/

/-- Where a manager has a store on disk: in the directory of its engine while it is on loan, and otherwise
in the directory where it would be opened. -/
def storePlace? (w : World) (ref : ManagerRef) (id : String) (options : Options) :
    Option (List String) :=
  match w.loan? ref id with
  | some loan => (w.engines.get? loan.engine).bind Engine.directory?
  | none =>
    if options.memoryOnly then none
    else
      match w.owner? ref with
      | some (app, user, some base) =>
        some (Path.place (Manager.storeDirectory app user base id options))
      | _ => none

/-- No other manager that is held has the store at the same place. -/
def Alone (w : World) (ref : ManagerRef) (id : String) (options : Options) : Prop :=
  ∀ ref' place, ref' ≠ ref → w.isManagerHeld ref' = true → w.storePlace? ref id options = some place →
    w.storePlace? ref' id options ≠ some place

section Places

variable {w : World} {ref : ManagerRef} {id : String} {options : Options}

theorem storePlace?_of_loan {loan : Loan} {e : Engine} (hloan : w.loan? ref id = some loan)
    (he : w.engines.get? loan.engine = some e) : w.storePlace? ref id options = e.directory? := by
  simp [storePlace?, hloan, he]

theorem storePlace?_of_directory {app user base : String} (hloan : w.loan? ref id = none)
    (hmemory : options.memoryOnly = false) (howner : w.owner? ref = some (app, user, some base)) :
    w.storePlace? ref id options =
      some (Path.place (Manager.storeDirectory app user base id options)) := by
  simp [storePlace?, hloan, hmemory, howner]

/-- What is not on loan is kept by the log at its place. -/
theorem kept_of_not_lent (h : w.loan? ref id = none) :
    w.kept ref id options = (w.storePlace? ref id options).elim ∅ (logTable w.disk) := by
  unfold kept storePlace?
  rw [h]
  cases options.memoryOnly with
  | true => rfl
  | false => rcases w.owner? ref with _ | ⟨app, user, _ | base⟩ <;> rfl

end Places

/-! ## Engines that are the same but for what they hold -/

/-- An engine may hold something else, but it is still what it was. -/
structure SameEngine (e e' : Engine) : Prop where
  id : e'.id = e.id
  options : e'.options = e.options
  isClosed : e'.isClosed = e.isClosed
  networked : e'.networked = e.networked
  directory : e'.directory? = e.directory?

theorem SameEngine.refl (e : Engine) : SameEngine e e := ⟨rfl, rfl, rfl, rfl, rfl⟩

theorem SameEngine.trans {e e' e'' : Engine} (h : SameEngine e e') (h' : SameEngine e' e'') :
    SameEngine e e'' :=
  ⟨h'.id.trans h.id, h'.options.trans h.options, h'.isClosed.trans h.isClosed,
    h'.networked.trans h.networked, h'.directory.trans h.directory⟩

/-- The same batches can be written to it. -/
theorem SameEngine.writes_iff {e e' : Engine} (h : SameEngine e e') (b : Batch) :
    e'.Writes b ↔ e.Writes b := by
  constructor
  · intro hwrites
    refine ⟨h.isClosed ▸ hwrites.isOpen, ?_⟩
    rw [← h.directory]
    exact hwrites.recordable
  · intro hwrites
    refine ⟨h.isClosed.trans hwrites.isOpen, ?_⟩
    rw [h.directory]
    exact hwrites.recordable

theorem sameEngine_of_write {e e' : Engine} {b : Batch} {d d' : Disk}
    (h : e.write b d = .ok (e', d')) : SameEngine e e' := by
  obtain ⟨hopen, hopen', hdirectory, -⟩ := Engine.table_of_write h
  obtain ⟨hid, hoptions⟩ := Engine.id_of_write h
  refine ⟨hid, hoptions, hopen'.trans hopen.symm, ?_, hdirectory⟩
  unfold Engine.write at h
  rw [hopen] at h
  split at h
  · cases h
  · split at h
    · cases h
      rfl
    · split at h
      · cases h
        rfl
      · split at h
        · cases h
        · cases h
          rfl

/-! ## Where the engine of a delivery comes from -/

/-- The engine that is lent for a delivery: the one on loan, or one that is opened. -/
inductive Supplies (w : World) (ref : ManagerRef) (id : String) (options : Options)
    (engine : EngineRef) (e : Engine) (disk : Disk) : Prop where
  | lent {loan : Loan} : w.loan? ref id = some loan → loan.engine = engine →
      w.engines.get? engine = some e → e.options.sameLayout options = true → disk = w.disk →
      Supplies w ref id options engine e disk
  | memory {networked : Bool} : w.loan? ref id = none → w.engines.get? engine = none →
      options.memoryOnly = true → e = { id, options, networked } → disk = w.disk →
      Supplies w ref id options engine e disk
  | directory {app user base : String} {networked : Bool} : w.loan? ref id = none →
      w.engines.get? engine = none → options.memoryOnly = false →
      w.owner? ref = some (app, user, some base) →
      Engine.openDirectory (Manager.storeDirectory app user base id options) id options networked
        w.isDirectoryHeld w.disk = (.ok e, disk) →
      Supplies w ref id options engine e disk

theorem Booked.supplies {w w' : World} (h : Booked w) {ref : ManagerRef} {id : String}
    {options : Options} {engine : EngineRef} (hlends : Lends w ref id options engine w') :
    ∃ e, w'.engines.get? engine = some e ∧ e.id = id ∧
      Supplies w ref id options engine e w'.disk := by
  obtain ⟨e, he, hid, -⟩ := h.engine_of_lends hlends
  refine ⟨e, he, hid, ?_⟩
  cases hlends.source with
  | again hloan hengine he' hlayout hengines hdisk =>
      rw [hengines] at he
      rw [he] at he'
      cases he'
      exact .lent hloan hengine he hlayout hdisk
  | @first m e' hnone hnext hm hopens hengines =>
      rw [hengines, SortedMap.get?_insert, if_pos rfl] at he
      cases he
      have hnew : w.engines.get? engine = none := by
        rw [hnext]
        exact (h.fresh w.next (Nat.le_refl _)).1
      cases hopens with
      | memory hmemory hdisk he => exact .memory hnone hnew hmemory he hdisk
      | @directory base hmemory hbase hopen =>
          exact .directory hnone hnew hmemory (by simp [owner?, hm, hbase]) hopen

namespace Supplies

variable {w : World} {ref : ManagerRef} {id : String} {options : Options} {engine : EngineRef}
  {e : Engine} {disk : Disk}

theorem directory?_eq (h : Supplies w ref id options engine e disk) :
    e.directory? = w.storePlace? ref id options := by
  cases h with
  | lent hloan hengine he =>
      rw [← hengine] at he
      exact (storePlace?_of_loan hloan he).symm
  | memory hnone _ hmemory he =>
      rw [he]
      simp [storePlace?, hnone, hmemory, Engine.directory?]
  | directory hnone _ hmemory howner hopen =>
      rw [storePlace?_of_directory hnone hmemory howner]
      exact Engine.directory?_of_openDirectory hopen

/-- An engine that was opened on disk persists what its log holds. -/
theorem persists (h : Supplies w ref id options engine e disk) (hnone : w.loan? ref id = none)
    {place : List String} (hplace : e.directory? = some place) :
    ∃ batches bs, e.Persists disk place batches bs := by
  cases h with
  | lent hloan =>
      rw [hnone] at hloan
      cases hloan
  | memory _ _ _ he =>
      rw [he] at hplace
      cases hplace
  | directory _ _ _ _ hopen =>
      obtain ⟨batches, bs, hpersists⟩ := (Engine.opened_of_openDirectory hopen).persists
      rw [hpersists.directory?] at hplace
      cases hplace
      exact ⟨batches, bs, hpersists⟩

/-- Logs build what they have built before. -/
theorem logTable_eq (h : Supplies w ref id options engine e disk) (place : List String) :
    logTable disk place = logTable w.disk place := by
  cases h with
  | lent _ _ _ _ hdisk => rw [hdisk]
  | memory _ _ _ _ hdisk => rw [hdisk]
  | directory _ _ _ _ hopen => exact (Engine.opened_of_openDirectory hopen).tables place

/-- No other log than that of the store is touched. -/
theorem content?_eq (h : Supplies w ref id options engine e disk) {place : List String}
    (hplace : w.storePlace? ref id options ≠ some place) :
    disk.content? (logPlace place) = w.disk.content? (logPlace place) := by
  cases h with
  | lent _ _ _ _ hdisk => rw [hdisk]
  | memory _ _ _ _ hdisk => rw [hdisk]
  | directory hnone _ hmemory howner hopen =>
      rw [storePlace?_of_directory hnone hmemory howner] at hplace
      exact (Engine.opened_of_openDirectory hopen).others place fun heq => hplace (by rw [heq])

/-- The engine holds what the store keeps. -/
theorem table_eq (h : Supplies w ref id options engine e disk) : e.table = w.kept ref id options := by
  have hdirectory := h.directory?_eq
  cases hloan : w.loan? ref id with
  | some loan =>
      cases h with
      | lent hloan' hengine he =>
          rw [kept_of_loan hloan', content_of_get? (e := e) (by rw [Handle.engine, hengine, he])]
      | memory hnone =>
          rw [hloan] at hnone
          cases hnone
      | directory hnone =>
          rw [hloan] at hnone
          cases hnone
  | none =>
      rw [kept_of_not_lent hloan, ← hdirectory]
      cases hplace : e.directory? with
      | some place =>
          obtain ⟨batches, bs, hpersists⟩ := h.persists hloan hplace
          rw [Option.elim_some, ← h.logTable_eq, hpersists.logTable_eq]
      | none =>
          cases h with
          | lent hloan' =>
              rw [hloan] at hloan'
              cases hloan'
          | memory _ _ _ he =>
              rw [he]
              rfl
          | directory _ _ _ _ hopen =>
              rw [Engine.directory?_of_openDirectory hopen] at hplace
              cases hplace

end Supplies

/-! ## What deliveries leave -/

/-- What deliveries leave as it was, whatever becomes of them and whoever they are for. -/
structure Leaves (s : Table) (w w' : World) : Prop where
  ways : SameWays w w'
  loans : ∀ ref id, w'.loan? ref id = w.loan? ref id
  switches : ∀ ref, w'.switches? ref = w.switches? ref
  engines : ∀ {r e}, w.engines.get? r = some e →
    ∃ e', w'.engines.get? r = some e' ∧ SameEngine e e' ∧ Over s e.table e'.table

theorem leaves_counted (s : Table) (handle : Handle) (call : EngineCall) (w : World) :
    Leaves s w (counted handle call w) := by
  have hbooks := (setsFaults_counted handle call w).sameBooks
  exact ⟨hbooks.ways, hbooks.loans, (sameGuards_counted handle call w).switches,
    fun he => ⟨_, hbooks.engines ▸ he, .refl _, .refl _ _⟩⟩

namespace Leaves

variable {s : Table} {w w' w'' : World}

theorem refl (s : Table) (w : World) : Leaves s w w :=
  ⟨.refl w, fun _ _ => rfl, fun _ => rfl, fun he => ⟨_, he, .refl _, .refl _ _⟩⟩

theorem trans (h : Leaves s w w') (h' : Leaves s w' w'') : Leaves s w w'' where
  ways := h.ways.trans h'.ways
  loans ref id := (h'.loans ref id).trans (h.loans ref id)
  switches ref := (h'.switches ref).trans (h.switches ref)
  engines he := by
    obtain ⟨e', he', hsame, hover⟩ := h.engines he
    obtain ⟨e'', he'', hsame', hover'⟩ := h'.engines he'
    exact ⟨e'', he'', hsame.trans hsame', hover.trans hover'⟩

/-- Stores lie where they lay. -/
theorem storePlace?_eq (hleaves : Leaves s w w') (h : Booked w) (ref : ManagerRef) (id : String)
    (options : Options) : w'.storePlace? ref id options = w.storePlace? ref id options := by
  unfold storePlace?
  rw [hleaves.loans, hleaves.ways.owners]
  cases hloan : w.loan? ref id with
  | none => rfl
  | some loan =>
      obtain ⟨-, e, he, -⟩ := h.lent hloan
      obtain ⟨e', he', hsame, -⟩ := hleaves.engines he
      simp [he, he', hsame.directory]

theorem alone_iff (hleaves : Leaves s w w') (h : Booked w) (ref : ManagerRef) (id : String)
    (options : Options) : w'.Alone ref id options ↔ w.Alone ref id options := by
  unfold Alone
  simp only [hleaves.storePlace?_eq h, hleaves.ways.names.isManagerHeld]

end Leaves

/-! ## Puts -/

/-- What a put of a whole table leaves as it was: at most it comes to one engine and its log. -/
structure PutsInto (s : Table) (engine : EngineRef) (w w' : World) : Prop where
  ways : SameWays w w'
  loans : ∀ ref id, w'.loan? ref id = w.loan? ref id
  guards : SameGuards w w'
  accepts : ∀ {ref handle}, Accepts w ref handle → Accepts w' ref handle
  engines : ∀ {r e}, w.engines.get? r = some e → ∃ e', w'.engines.get? r = some e' ∧
    SameEngine e e' ∧ Over s e.table e'.table ∧ (r ≠ engine → e'.table = e.table)
  grows : ∀ making, w.disk.Grows making w'.disk
  logs : ∀ {place}, (∀ e, w.engines.get? engine = some e → e.directory? ≠ some place) →
    w'.disk.content? (logPlace place) = w.disk.content? (logPlace place)

section Puts

variable {s : Table} {w w₁ w' : World} {handle : Handle}

theorem PutsInto.refl (s : Table) (engine : EngineRef) (w : World) : PutsInto s engine w w where
  ways := .refl w
  loans _ _ := rfl
  guards := .refl w
  accepts h := h
  engines he := ⟨_, he, .refl _, .refl _ _, fun _ => rfl⟩
  grows making := .refl making w.disk
  logs _ := rfl

/-- Before the put the call may be counted. -/
theorem PutsInto.of_counted {engine : EngineRef} {call : EngineCall}
    (h : PutsInto s engine (counted handle call w) w') : PutsInto s engine w w' := by
  have hfaults := setsFaults_counted handle call w
  have hbooks := hfaults.sameBooks
  constructor
  case ways => exact hbooks.ways.trans h.ways
  case loans => exact fun ref id => (h.loans ref id).trans (hbooks.loans ref id)
  case guards => exact (sameGuards_counted handle call w).trans h.guards
  case accepts => exact fun haccepts => h.accepts (hfaults.accepts haccepts)
  case engines => exact fun he => h.engines (by rw [hbooks.engines, he])
  case grows =>
    intro making
    rw [← hbooks.disk]
    exact h.grows making
  case logs =>
    intro place hplace
    rw [← hbooks.disk]
    exact h.logs fun e he => hplace e (by rw [← hbooks.engines, he])

theorem putsInto_applied (h : Accounted w) (handle : Handle) (s : Table) :
    PutsInto s handle.engine w (applied handle (.put (s.scan [])) w) := by
  unfold applied
  split
  · exact .refl s handle.engine w
  · rename_i e he
    split
    · exact .refl s handle.engine w
    · rename_i e' disk hwrite
      have hget (r : EngineRef) : (w.engines.insert handle.engine e').get? r =
          if r = handle.engine then some e' else w.engines.get? r :=
        SortedMap.get?_insert w.engines handle.engine e' r
      constructor
      case ways => exact ⟨⟨rfl, rfl, rfl⟩, rfl, fun _ => rfl⟩
      case loans => exact fun _ _ => rfl
      case guards => exact .of_managers_eq rfl
      case accepts => exact fun haccepts => haccepts
      case engines =>
        intro r e₀ he₀
        show ∃ e₁, (w.engines.insert handle.engine e').get? r = some e₁ ∧ _
        rw [hget]
        split
        · rename_i heq
          rw [heq, he] at he₀
          cases he₀
          have htable : e'.table = e.table.overlay s := by
            rw [(Engine.table_of_write hwrite).2.2.2, Table.scan_nil]
            rfl
          exact ⟨e', rfl, sameEngine_of_write hwrite, .inr htable, fun hne => absurd heq hne⟩
        · exact ⟨e₀, he₀, .refl e₀, .refl _ _, fun _ => rfl⟩
      case grows =>
        exact fun making => Engine.grows_of_write (fun place hplace => h.logged he hplace) hwrite
      case logs =>
        intro place hplace
        refine Engine.content?_of_write hwrite fun place' hplace' heq => hplace e he ?_
        rw [hplace', Engine.logPlace_injective heq]

theorem putsInto_put (h : Accounted w) (handle : Handle) (s : Table) :
    PutsInto s handle.engine w ((put handle (s.scan [])).exec w).2 := by
  rw [exec_put_eq]
  split
  · exact .of_counted (.refl s handle.engine _)
  · exact .of_counted (putsInto_applied (h.setsFaults (setsFaults_counted handle .put w)) handle s)

end Puts

/-! ## Deliveries -/

/-- How a delivery goes: it is denied, or it answers what its put answers, and the store is returned. -/
inductive Delivers (w : World) (ref : ManagerRef) (id : String) (options : Options)
    (es : List Entry) : Except StorageError Unit → World → Prop where
  | denied {err : StorageError} {w' : World} : Denies w ref id options w' →
      Delivers w ref id options es (.error err) w'
  | lent {handle : Handle} {w₁ w' : World} : LendsHandle w ref id options handle w₁ →
      Permits w ref id options →
      ReturnsEngine (unwrapped ref handle ((put handle es).exec w₁).2) ref id handle.engine w' →
      Delivers w ref id options es ((put handle es).exec w₁).1 w'

section Deliveries

variable {s : Table} {w w' : World} {ref : ManagerRef} {id : String} {options : Options}

theorem delivers_deliver (h : Accounted w) (ref : ManagerRef) (id : String) (options : Options)
    (s : Table) :
    Delivers w ref id options (s.scan []) ((deliver id options (s.scan []) ref).exec w).1
      ((deliver id options (s.scan []) ref).exec w).2 := by
  rcases exec_deliver_cases id options (s.scan []) ref w with
    ⟨err, w', hdenies, hexec⟩ |
      ⟨handle, w₁, written, w₂, released, w₃, hlends, hpermits, hput, hreclaim, hexec⟩
  · rw [hexec]
    exact .denied hdenies
  · rw [hexec]
    obtain ⟨e, he, hid, -⟩ := h.booked.supplies hlends.lends
    have hputs := putsInto_put (h.lends hlends).1 handle s
    rw [hput] at hputs
    -- The engine is still on loan after the put, so that the manager takes it back.
    obtain ⟨e', he', hsame, -⟩ := hputs.engines he
    have hloan := (hputs.loans ref id).trans hlends.lends.loan
    rw [← hid, ← hsame.id] at hloan
    have hreturns := ensures_reclaim_accepted (hputs.accepts hlends.accepts) he' hloan rfl
    unfold Ensures at hreturns
    rw [hreclaim] at hreturns
    cases released with
    | error err => exact hreturns.elim
    | ok =>
        rw [hsame.id, hid] at hreturns
        have hreturned : ReturnsEngine (unwrapped ref handle ((put handle (s.scan [])).exec w₁).2) ref
            id handle.engine w₃ := by
          rw [hput]
          exact hreturns
        have hdelivers := Delivers.lent hlends hpermits hreturned
        rw [hput] at hdelivers
        cases written <;> exact hdelivers

/-- What a delivery leaves as it was. -/
structure Round (s : Table) (ref : ManagerRef) (id : String) (options : Options) (w w' : World) :
    Prop extends Leaves s w w' where
  held : ∀ r, w'.isEngineHeld r = w.isEngineHeld r
  /-- Only the engine of the store may hold something else, while it is on loan. -/
  untouched : ∀ {r e e'}, w.engines.get? r = some e → w'.engines.get? r = some e' →
    (∀ loan, w.loan? ref id = some loan → loan.engine ≠ r) → e'.table = e.table
  grows : w.disk.Grows options.createIfMissing w'.disk
  logs : ∀ {place}, w.storePlace? ref id options ≠ some place →
    w'.disk.content? (logPlace place) = w.disk.content? (logPlace place)

/-- All engines may stay as they are. -/
theorem untouched_of_engines_eq {w w' : World} (h : w'.engines = w.engines) {r : EngineRef}
    {e e' : Engine} (he : w.engines.get? r = some e) (he' : w'.engines.get? r = some e') :
    e'.table = e.table := by
  rw [h, he] at he'
  cases he'
  rfl

theorem Round.of_disk {disk : Disk} (hgrows : w.disk.Grows options.createIfMissing disk)
    (hlogs : ∀ place, disk.content? (logPlace place) = w.disk.content? (logPlace place)) :
    Round s ref id options w { w with disk } where
  ways := ⟨⟨rfl, rfl, rfl⟩, rfl, fun _ => rfl⟩
  loans _ _ := rfl
  switches _ := rfl
  engines he := ⟨_, he, .refl _, .refl _ _⟩
  held _ := rfl
  untouched he he' _ := untouched_of_engines_eq (w := w) rfl he he'
  grows := hgrows
  logs _ := hlogs _

/-- That a call was counted is less than a delivery. -/
theorem round_counted (s : Table) (ref : ManagerRef) (id : String) (options : Options) (handle : Handle)
    (call : EngineCall) (w : World) : Round s ref id options w (counted handle call w) := by
  have hbooks := (setsFaults_counted handle call w).sameBooks
  constructor
  case toLeaves => exact leaves_counted s handle call w
  case held =>
    refine isEngineHeld_congr hbooks.ways.names hbooks.loans fun ref wrapper => ?_
    rw [(sameGuards_counted handle call w).wrappers]
  case untouched => exact fun he he' _ => untouched_of_engines_eq hbooks.engines he he'
  case grows =>
    rw [hbooks.disk]
    exact .refl _ w.disk
  case logs =>
    intro place _
    rw [hbooks.disk]

theorem Denies.round (h : Denies w ref id options w') : Round s ref id options w w' := by
  have hsame : Round s ref id options w w := .of_disk (.refl _ w.disk) fun _ => rfl
  cases h with
  | unknown => exact hsame
  | name => exact hsame
  | lost => exact hsame
  | layout => exact hsame
  | @unopened m _ _ _ hunopened =>
      cases hunopened with
      | encrypted => exact hsame
      | base => exact hsame
      | @directory base err disk _ _ hopen =>
          have hgrows := Engine.grows_openDirectory
            (Manager.storeDirectory m.app m.user base id options) id options m.networked
            w.isDirectoryHeld w.disk
          rw [hopen] at hgrows
          exact .of_disk hgrows (Engine.content?_of_openDirectory_error hopen)

/-- A wrapper that comes at the end of a list and is taken off again leaves what was in the list. -/
theorem mem_erase_append_iff {α : Type} [BEq α] [LawfulBEq α] (l : List α) (added : Option α) (a : α) :
    a ∈ added.elim (l ++ added.toList) (l ++ added.toList).erase ↔ a ∈ l := by
  cases added with
  | none => simp
  | some b =>
      have hperm : ((l ++ [b]).erase b).Perm l := by
        have := (List.perm_append_singleton b l).erase b
        rwa [List.erase_cons_head] at this
      exact hperm.mem_iff

/-- Switches and wrappers are the same after a loan and its return. -/
theorem LendsHandle.guards_of_round {w₁ w₂ : World} {handle : Handle} {engine : EngineRef}
    (h : LendsHandle w ref id options handle w₁) (hguards : SameGuards w₁ w₂)
    (hreturns : ReturnsEngine (unwrapped ref handle w₂) ref id engine w') :
    (∀ ref', w'.switches? ref' = w.switches? ref') ∧
      ∀ ref' wrapper, wrapper ∈ w'.wrappers ref' ↔ wrapper ∈ w.wrappers ref' := by
  have hreturned := hreturns.sameGuards
  obtain ⟨hswitches, hwrappers⟩ := h.guards
  obtain ⟨hswitches', hwrappers'⟩ := guards_unwrapped ref handle w₂
  refine ⟨fun ref' => ?_, fun ref' wrapper => ?_⟩
  · rw [hreturned.switches, hswitches', hguards.switches, hswitches]
  · rw [hreturned.wrappers, hwrappers', hguards.wrappers, hwrappers]
    split
    · exact mem_erase_append_iff _ _ _
    · rw [List.append_nil]

theorem Delivers.round {written : Except StorageError Unit} (h : Accounted w)
    (hdelivers : Delivers w ref id options (s.scan []) written w') : Round s ref id options w w' := by
  cases hdelivers with
  | denied hdenies => exact hdenies.round
  | @lent handle w₁ _ hlends hpermits hreturned =>
      have hbooks := hlends.lends
      have hput := putsInto_put (h.lends hlends).1 handle s
      have hreturns := (sameBooks_unwrapped ref handle _).returns hreturned.returns
      obtain ⟨hswitches, hwrappers⟩ := hlends.guards_of_round hput.guards hreturned
      have hloans := h.booked.loans_of_round hbooks hput.loans hreturns
      have hnames := (hbooks.ways.trans hput.ways).trans hreturns.ways
      obtain ⟨e₁, he₁, -, hsupplies⟩ := h.booked.supplies hbooks
      -- An engine that was there before is there after the return, with what the put has left in it.
      have hengines {r : EngineRef} {e : Engine} (he : w.engines.get? r = some e) :
          ∃ e', w'.engines.get? r = some e' ∧ SameEngine e e' ∧ Over s e.table e'.table ∧
            (r ≠ handle.engine → e'.table = e.table) := by
        obtain ⟨e₂, he₂, hsame⟩ := hput.engines (hbooks.get?_engines h.booked.fresh he)
        exact ⟨e₂, h.booked.engines_of_round hbooks hput.loans hreturns he he₂, hsame⟩
      constructor
      case toLeaves =>
        refine ⟨hnames, hloans, hswitches, fun he => ?_⟩
        obtain ⟨e', he', hsame, hover, -⟩ := hengines he
        exact ⟨e', he', hsame, hover⟩
      case held => exact isEngineHeld_congr hnames.names hloans hwrappers
      case untouched =>
        intro r e e' he he' hnone
        obtain ⟨e₂, he₂, -, -, huntouched⟩ := hengines he
        rw [he'] at he₂
        cases he₂
        refine huntouched ?_
        -- Only the engine on loan was there before and is lent now.
        rintro rfl
        cases hsupplies with
        | lent hloan hengine => exact hnone _ hloan hengine
        | memory _ hnew =>
            rw [hnew] at he
            cases he
        | directory _ hnew =>
            rw [hnew] at he
            cases he
      case grows =>
        rw [hreturns.disk]
        exact hbooks.grows.trans (hput.grows _)
      case logs =>
        intro place hplace
        rw [hreturns.disk, hput.logs, hsupplies.content?_eq hplace]
        intro e he
        rw [he₁] at he
        cases he
        rwa [hsupplies.directory?_eq]

end Deliveries

end ObjectStore.World
