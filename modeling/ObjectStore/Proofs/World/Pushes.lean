import ObjectStore.Proofs.Depot.Merge
import ObjectStore.Proofs.Engine.Place
import ObjectStore.Proofs.World.Ledger

/-!
# What pushes do to stores

A push delivers the entries of one table to one device after the other. Whatever becomes of it, every
engine and every log then holds what it held before, or that with the table put over it, and the books
of all managers are as they were. Where a delivery succeeds, the store holds the table.

What a store holds is what its engine holds while it is on loan, and otherwise what the log of its
directory builds. A store in memory that is not on loan holds nothing, whatever is delivered to it.

Main statements: `ensures_deliver`, `pushes_pushAll` and `ensures_sync_pushes`.
-/

namespace ObjectStore.World

open ObjectStore.Action Engine

/-! ## What a store holds -/

/-- What a manager's store holds: what its engine holds while it is on loan, and otherwise what the log
in its directory builds. -/
def kept (w : World) (ref : ManagerRef) (id : String) (options : Options) : Table :=
  match w.loan? ref id with
  | some loan => content (.direct loan.engine) w
  | none =>
    if options.memoryOnly then ∅
    else
      match w.owner? ref with
      | some (app, user, some base) =>
        logTable w.disk (Path.place (Manager.storeDirectory app user base id options))
      | _ => ∅

theorem kept_of_loan {w : World} {ref : ManagerRef} {id : String} {loan : Loan}
    (h : w.loan? ref id = some loan) (options : Options) :
    w.kept ref id options = content (.direct loan.engine) w := by
  simp [kept, h]

theorem kept_of_directory {w : World} {ref : ManagerRef} {id app user base : String}
    {options : Options} (h : w.loan? ref id = none) (hmemory : options.memoryOnly = false)
    (howner : w.owner? ref = some (app, user, some base)) :
    w.kept ref id options =
      logTable w.disk (Path.place (Manager.storeDirectory app user base id options)) := by
  simp [kept, h, hmemory, howner]

/-- Whether and where a store lies on disk is part of the layout. -/
theorem layout_of_sameLayout {options options' : Options}
    (h : options.sameLayout options' = true) :
    options.memoryOnly = options'.memoryOnly ∧ options.directoryById = options'.directoryById := by
  simp only [Options.sameLayout, Bool.and_eq_true, beq_iff_eq] at h
  exact h.1.1

/-- What a store holds depends on the layout alone. -/
theorem kept_congr (w : World) (ref : ManagerRef) (id : String) {options options' : Options}
    (h : options.sameLayout options' = true) : w.kept ref id options = w.kept ref id options' := by
  obtain ⟨hmemory, hdirectory⟩ := layout_of_sameLayout h
  simp only [kept, Manager.storeDirectory, hmemory, hdirectory]

/-! ## Tables that a table may have been put over -/

/-- A table stays as it is, or another is put over it. -/
def Over (s t t' : Table) : Prop :=
  t' = t ∨ t' = t.overlay s

theorem Over.refl (s t : Table) : Over s t t := .inl rfl

theorem Over.trans {s t t' t'' : Table} (h : Over s t t') (h' : Over s t' t'') : Over s t t'' := by
  rcases h with rfl | rfl
  · exact h'
  · rcases h' with rfl | rfl
    · exact .inr rfl
    · exact .inr (Table.overlay_overlay t s)

/-- What was put over a table once stays there. -/
theorem Over.overlay {s t t' t'' : Table} (h : Over s t t') (h' : t'' = t'.overlay s) :
    t'' = t.overlay s := by
  rcases h with rfl | rfl
  · exact h'
  · rw [h', Table.overlay_overlay]

theorem Over.of_overlay {s t t' : Table} (h : Over s (t.overlay s) t') : t' = t.overlay s := by
  rcases h with rfl | rfl
  · rfl
  · exact Table.overlay_overlay t s

/-! ## Pushes -/

/-- At most a table was put over the tables of engines and over logs. -/
structure Pushes (s : Table) (w w' : World) : Prop where
  steady : Steady w w'
  ways : SameWays w w'
  tables : ∀ {r e}, w.engines.get? r = some e →
    ∃ e', w'.engines.get? r = some e' ∧ Over s e.table e'.table
  logs : ∀ place, Over s (logTable w.disk place) (logTable w'.disk place)

namespace Pushes

variable {s : Table} {w w' w'' : World}

theorem refl (s : Table) (w : World) : Pushes s w w :=
  ⟨.refl w, .refl w, fun he => ⟨_, he, .refl _ _⟩, fun _ => .refl _ _⟩

theorem trans (h : Pushes s w w') (h' : Pushes s w' w'') : Pushes s w w'' where
  steady := h.steady.trans h'.steady
  ways := h.ways.trans h'.ways
  tables he := by
    obtain ⟨e', he', hover⟩ := h.tables he
    obtain ⟨e'', he'', hover'⟩ := h'.tables he'
    exact ⟨e'', he'', hover.trans hover'⟩
  logs place := (h.logs place).trans (h'.logs place)

theorem content (h : Pushes s w w') {handle : Handle} {e : Engine}
    (he : w.engines.get? handle.engine = some e) :
    Over s (World.content handle w) (World.content handle w') := by
  obtain ⟨e', he', hover⟩ := h.tables he
  rw [content_of_get? he, content_of_get? he']
  exact hover

theorem kept (h : Pushes s w w') {out : List Borrowing} (hw : Ledger w out) (ref : ManagerRef)
    (id : String) (options : Options) :
    Over s (w.kept ref id options) (w'.kept ref id options) := by
  have hloan' := h.steady.loans ref id
  cases hloan : w.loan? ref id with
  | some loan =>
      obtain ⟨-, e, he, -⟩ := hw.lent hloan
      rw [hloan] at hloan'
      rw [kept_of_loan hloan, kept_of_loan hloan']
      exact h.content he
  | none =>
      rw [hloan] at hloan'
      unfold World.kept
      rw [hloan, hloan', h.ways.owners]
      simp only
      split
      · exact .refl s ∅
      · split
        · exact h.logs _
        · exact .refl s ∅

end Pushes

theorem SameBooks.pushes {w w' : World} (h : SameBooks w w') (s : Table) : Pushes s w w' where
  steady := h.steady
  ways := h.ways
  tables he := ⟨_, h.engines ▸ he, .refl _ _⟩
  logs place := by
    rw [h.disk]
    exact .refl _ _

theorem Refused.pushes {w w' : World} (h : Refused w w') (s : Table) : Pushes s w w' := by
  have hsteady := h.steady
  obtain ⟨disk, hext, rfl⟩ := h.exists_extends
  exact
    { steady := hsteady.1
      ways := ⟨hsteady.2, rfl, fun _ => rfl⟩
      tables := fun he => ⟨_, he, .refl _ _⟩
      logs := fun place => .inl (logTable_of_extends hext place) }

/-! ## One delivery -/

/-- A put is one batch that is accepted, or nothing but its count. -/
theorem ensures_put_write (handle : Handle) (es : List Entry) (w : World) :
    (put handle es).Ensures w
      (fun _ w' => ∃ w₁ e e' disk, SetsFaults w w₁ ∧ w₁.engines.get? handle.engine = some e ∧
        e.write (.put es) w₁.disk = .ok (e', disk) ∧
          w' = { w₁ with engines := w₁.engines.insert handle.engine e', disk })
      fun _ w' => SetsFaults w w' := by
  refine Ensures.bind ((ensures_guardCall handle .put w).weaken (fun _ _ h => h) fun _ _ h => h) ?_
  intro _ w₁ hw₁
  refine (ensures_write handle (.put es) w₁).weaken ?_ ?_
  · intro _ w' h
    obtain ⟨e, e', disk, he, hwrite, hw'⟩ := h
    exact ⟨w₁, e, e', disk, hw₁, he, hwrite, hw'⟩
  · intro _ w' h
    rw [h]
    exact hw₁

/-- Switches and counters do not matter for what a manager takes back. -/
theorem SetsFaults.accepts {w w' : World} (h : SetsFaults w w') {ref : ManagerRef} {handle : Handle}
    (haccepts : Accepts w ref handle) : Accepts w' ref handle := by
  cases h with
  | refl => exact haccepts
  | @set ref' m' guard faults hm' hguard =>
      obtain ⟨m, hm, hhandle⟩ := haccepts
      by_cases heq : ref = ref'
      · subst heq
        rw [hm] at hm'
        cases hm'
        refine ⟨_, by rw [get?_modifyManager, if_pos rfl, hm, Option.map_some], ?_⟩
        unfold Manager.accepts at hhandle ⊢
        rw [hguard] at hhandle
        cases handle with
        | direct engine => cases hhandle
        | wrapped serial lender engine => exact hhandle
      · exact ⟨m, by rw [get?_modifyManager, if_neg heq, hm], hhandle⟩

section Delivery

variable {s : Table} {w w' : World} {handle : Handle} {ref : ManagerRef} {id : String}
  {options : Options} {out : List Borrowing}

/-- The log of a directory that is held builds what the engine holds. -/
theorem Consistent.logTable_eq (hw : Consistent w) {r : EngineRef} {e : Engine}
    {place : List String} (he : w.engines.get? r = some e) (hheld : w.isEngineHeld r = true)
    (hplace : e.directory? = some place) : logTable w.disk place = e.table := by
  obtain ⟨batches, bs, hpersists⟩ := hw.persists he hheld hplace
  exact hpersists.logTable_eq

/-- An accepted batch that puts a table over that of an engine does the same to its log. -/
theorem pushes_of_write (hw : Consistent w) {e e' : Engine} {batch : Batch} {disk : Disk}
    (hheld : w.isEngineHeld handle.engine = true) (he : w.engines.get? handle.engine = some e)
    (hwrite : e.write batch w.disk = .ok (e', disk)) (htable : e'.table = e.table.overlay s) :
    Pushes s w { w with engines := w.engines.insert handle.engine e', disk } := by
  have hget (r : EngineRef) :
      (w.engines.insert handle.engine e').get? r =
        if r = handle.engine then some e' else w.engines.get? r :=
    SortedMap.get?_insert w.engines handle.engine e' r
  constructor
  case steady => exact steady_of_write he hwrite
  case ways => exact ⟨⟨rfl, rfl, rfl⟩, rfl, fun _ => rfl⟩
  case tables =>
    intro r e₀ he₀
    show ∃ e₁, (w.engines.insert handle.engine e').get? r = some e₁ ∧ _
    rw [hget]
    split
    · rename_i heq
      rw [heq, he] at he₀
      cases he₀
      exact ⟨e', rfl, .inr htable⟩
    · exact ⟨e₀, he₀, .refl _ _⟩
  case logs =>
    intro place
    have hwritten := logTable_of_write (fun _ => hw.persists he hheld) hwrite place
    rcases hwritten with hsame | ⟨-, hbefore, hafter⟩
    · exact .inl hsame
    · apply Or.inr
      rw [hbefore, ← htable]
      exact hafter

/-- What a put of a whole table leaves behind. -/
structure Puts (s : Table) (w w' : World) : Prop where
  pushes : Pushes s w w'
  accepts : ∀ {ref handle}, Accepts w ref handle → Accepts w' ref handle

theorem SetsFaults.puts (h : SetsFaults w w') (s : Table) : Puts s w w' :=
  ⟨h.sameBooks.pushes s, h.accepts⟩

/-- The engine holds the table over what it held before, and so does the log of its directory. -/
structure Wrote (s : Table) (handle : Handle) (w w' : World) : Prop where
  content : content handle w' = (content handle w).overlay s
  log : ∀ {e place}, w.engines.get? handle.engine = some e → e.directory? = some place →
    logTable w'.disk place = World.content handle w'

theorem ensures_put_wrote (hw : Consistent w) (hheld : w.isEngineHeld handle.engine = true)
    (hs : s.Represented) :
    (put handle (s.scan [])).Ensures w (fun _ w' => Puts s w w' ∧ Wrote s handle w w')
      fun _ w' => Puts s w w' := by
  refine (ensures_put_write handle (s.scan []) w).weaken ?_ fun _ _ h => h.puts s
  intro _ w' h
  obtain ⟨w₁, e, e', disk, hw₁, he, hwrite, rfl⟩ := h
  have hheld₁ := hw₁.isEngineHeld_iff.mpr hheld
  have hconsistent := hw.tame hw₁.tame
  obtain ⟨-, -, hdirectory, happly⟩ := table_of_write hwrite
  have htable : e'.table = e.table.overlay s := by
    rw [happly, Table.scan_nil]
    rfl
  have hrepresented : e'.table.Represented := by
    rw [htable]
    exact (hconsistent.represented he).overlay hs
  have hnew : (w₁.engines.insert handle.engine e').get? handle.engine = some e' := by
    simp [SortedMap.get?_insert]
  refine ⟨⟨(hw₁.puts s).pushes.trans (pushes_of_write hconsistent hheld₁ he hwrite htable),
    fun h => hw₁.accepts h⟩, ?_, fun {e₀ place} he₀ hplace => ?_⟩
  · rw [← hw₁.content_eq handle, content_of_get? he, ← htable]
    exact content_of_get? hnew
  · rw [← hw₁.engines_eq, he] at he₀
    cases he₀
    -- The world is consistent after the put, so that the log goes on building the table.
    have hafter := hconsistent.write hheld₁ he hwrite hrepresented
    exact (hafter.logTable_eq hnew hheld₁ (hdirectory.trans hplace)).trans (content_of_get? hnew).symm

/-- A loan adds at most empty logs. -/
theorem Lends.logTable_eq (h : Lends w ref id options handle.engine w') (hw : Consistent w)
    (place : List String) : logTable w'.disk place = logTable w.disk place := by
  cases h.source with
  | again _ _ _ _ _ hdisk => rw [hdisk]
  | first _ _ _ hopens _ =>
      cases hopens with
      | memory _ hdisk => rw [hdisk]
      | directory _ _ hopen =>
          exact logTable_of_extends (openDirectory_of_logsRepresent hw.logs hopen).1 place

/-- A loan and its return around a put of a table are a push of the table. -/
theorem Lends.pushes {w₁ w₂ : World} (h : Lends w ref id options handle.engine w₁)
    (hw : Consistent w) (hledger : Ledger w out) (hput : Pushes s w₁ w₂)
    (hreturns : Returns w₂ ref id handle.engine w') : Pushes s w w' := by
  have hloans := hledger.booked.loans_of_round h hput.steady.loans hreturns
  constructor
  case steady =>
    refine ⟨fun hfresh => hreturns.fresh (hput.steady.fresh (h.fresh hfresh)), hloans, fun he => ?_⟩
    obtain ⟨e₂, he₂, hsame⟩ := hput.steady.engines (h.get?_engines hledger.fresh he)
    exact ⟨e₂, hledger.booked.engines_of_round h hput.steady.loans hreturns he he₂, hsame⟩
  case ways => exact (h.ways.trans hput.ways).trans hreturns.ways
  case tables =>
    intro r e he
    obtain ⟨e₂, he₂, hover⟩ := hput.tables (h.get?_engines hledger.fresh he)
    exact ⟨e₂, hledger.booked.engines_of_round h hput.steady.loans hreturns he he₂, hover⟩
  case logs =>
    intro place
    rw [hreturns.disk, ← h.logTable_eq hw place]
    exact hput.logs place

theorem Returns.content_eq (h : Returns w ref id handle.engine w') {e : Engine}
    (he : w.engines.get? handle.engine = some e) : content handle w' = content handle w := by
  rw [content_of_get? he]
  rcases h.engines he with hsame | ⟨-, -, hclosed⟩
  · exact content_of_get? hsame
  · exact (content_of_get? hclosed).trans rfl

/-- What is lent holds what the store holds. -/
theorem Lends.content_eq (h : Lends w ref id options handle.engine w') (hw : Consistent w)
    (hledger : Ledger w out) : content handle w' = w.kept ref id options := by
  cases h.source with
  | @again loan e hloan hengine he =>
      rw [kept_of_loan hloan, hengine, content_of_get? (h.get?_engines hledger.fresh he)]
      exact (content_of_get? he).symm
  | @first m e hnone hnext hm hopens hengines =>
      have he : w'.engines.get? handle.engine = some e := by
        simp [hengines, SortedMap.get?_insert]
      rw [content_of_get? he]
      cases hopens with
      | memory hmemory _ hempty => simp [kept, hnone, hmemory, hempty]
      | @directory base hmemory hbase hopen =>
          have howner : w.owner? ref = some (m.app, m.user, some base) := by
            simp [owner?, hm, hbase]
          obtain ⟨-, -, hopened⟩ := openDirectory_of_logsRepresent hw.logs hopen
          obtain ⟨place, batches, bs, -, hpersists⟩ := hopened e rfl
          have hplace := directory?_of_openDirectory hopen
          rw [hpersists.directory?] at hplace
          cases hplace
          rw [kept_of_directory hnone hmemory howner, ← h.logTable_eq hw, hpersists.logTable_eq]

/-- Where the store was on loan or is on disk, it holds afterwards what was put into the engine. -/
theorem Lends.kept_eq {w₁ w₂ : World} (h : Lends w ref id options handle.engine w₁)
    (hw : Consistent w) (hledger : Ledger w out) (hput : Pushes s w₁ w₂)
    (hwrote : Wrote s handle w₁ w₂) (hreturns : Returns w₂ ref id handle.engine w')
    (hreached : (w.loan? ref id).isSome ∨ options.memoryOnly = false) :
    w'.kept ref id options = (w.kept ref id options).overlay s := by
  rw [← h.content_eq hw hledger, ← hwrote.content]
  have hpushes := h.pushes hw hledger hput hreturns
  have hloan' := hpushes.steady.loans ref id
  cases h.source with
  | @again loan e hloan hengine he =>
      rw [hloan] at hloan'
      obtain ⟨e₂, he₂, -⟩ := hput.tables (h.get?_engines hledger.fresh he)
      rw [kept_of_loan hloan', ← hreturns.content_eq he₂, hengine]
      rfl
  | @first m e hnone hnext hm hopens hengines =>
      rw [hnone] at hloan' hreached
      cases hopens with
      | memory hmemory =>
          rw [hmemory] at hreached
          simp at hreached
      | @directory base hmemory hbase hopen =>
          have howner : w'.owner? ref = some (m.app, m.user, some base) := by
            rw [hpushes.ways.owners]
            simp [owner?, hm, hbase]
          have he : w₁.engines.get? handle.engine = some e := by
            simp [hengines, SortedMap.get?_insert]
          rw [kept_of_directory hloan' hmemory howner, hreturns.disk]
          exact hwrote.log he (directory?_of_openDirectory hopen)

/-- A delivery to a manager that is held is a push of the table. If it succeeds, the store holds the table,
where it was on loan or is on disk. -/
theorem ensures_deliver (hw : Consistent w) (hledger : Ledger w out)
    (hheld : w.isManagerHeld ref = true) (id : String) (options : Options) (hs : s.Represented) :
    (deliver id options (s.scan []) ref).Ensures w
      (fun _ w' => Pushes s w w' ∧
        ((w.loan? ref id).isSome ∨ options.memoryOnly = false →
          w'.kept ref id options = (w.kept ref id options).overlay s))
      fun _ w' => Pushes s w w' := by
  unfold Ensures
  rcases exec_deliver_cases id options (s.scan []) ref w with
    ⟨err, w', hdenies, hexec⟩ | ⟨handle, w₁, written, w₂, released, w₃, hlent, -, hput, hreclaim, hexec⟩
  · rw [hexec]
    exact hdenies.refused.pushes s
  · rw [hexec]
    have hevolves := hlent.lent.evolves
    have hlends := hlent.lends
    obtain ⟨m, hm, hholds⟩ := hlent.lent.manager
    have hheld₁ : w₁.isEngineHeld handle.engine = true :=
      isEngineHeld_of_manager hm ((hevolves.names.isManagerHeld ref).trans hheld) hholds
    have hwritten := ensures_put_wrote (hw.moves hevolves.moves) hheld₁ hs
    unfold Ensures at hwritten
    rw [hput] at hwritten
    have hputs : Puts s w₁ w₂ := by
      cases written with
      | ok => exact hwritten.1
      | error err => exact hwritten
    have hledger₂ := (hledger.lends hlends).steady hputs.pushes.steady
    obtain ⟨loan, e, hloan, hengine, -, he, -⟩ := hledger₂.counted _ List.mem_cons_self
    obtain ⟨e', he', hid, -⟩ := hledger₂.engine List.mem_cons_self
    rw [he] at he'
    cases he'
    simp only at hloan hengine he hid
    -- The manager takes back what it has lent, whatever became of the put.
    have hreturned := ensures_reclaim_books ref handle w₂
    unfold Ensures at hreturned
    rw [hreclaim] at hreturned
    have hreturns : Returns w₂ ref id handle.engine w₃ := by
      cases released with
      | ok =>
          obtain ⟨e', he', hreturns⟩ := hreturned
          rw [he] at he'
          cases he'
          rwa [hid] at hreturns
      | error err =>
          have hrefused := hreturned.2 (hputs.accepts hlent.accepts) e loan he (by rwa [hid])
          exact absurd hengine hrefused
    have hpushes := hlends.pushes hw hledger hputs.pushes hreturns
    cases written with
    | error err => exact hpushes
    | ok =>
        cases released with
        | error err => exact hpushes
        | ok => exact ⟨hpushes, hlends.kept_eq hw hledger hputs.pushes hwritten.2 hreturns⟩

end Delivery

/-! ## Pushes to all devices -/

section Devices

variable {s : Table} {w : World} {out : List Borrowing}

/-- Each device's store holds the table where the push is done, if it was on loan or is on disk. -/
def Reaches (s : Table) (id : String) (options : Options) (w w' : World) (device : String) : Prop :=
  ∀ ref, w.resolve device = some ref → (w.loan? ref id).isSome ∨ options.memoryOnly = false →
    w'.kept ref id options = (w.kept ref id options).overlay s

theorem pushes_pushTo (hw : Consistent w) (hledger : Ledger w out) (networked : Bool) (id : String)
    (options : Options) (hs : s.Represented) (device : String) :
    Pushes s w ((pushTo networked id options (s.scan []) device).run w).2 ∧
      (((pushTo networked id options (s.scan []) device).run w).1 = .done →
        Reaches s id options w ((pushTo networked id options (s.scan []) device).run w).2 device) := by
  rw [run_pushTo]
  split
  · exact ⟨.refl s w, fun h => by cases h⟩
  · rename_i manager hmanager
    have hresolve : w.resolve device = some manager := by
      split at hmanager
      · exact hmanager
      · cases hmanager
    have hdeliver :=
      ensures_deliver hw hledger (isManagerHeld_of_resolve hresolve) id options hs
    unfold Ensures at hdeliver
    rcases hexec : (deliver id options (s.scan []) manager).exec w with ⟨err | ok, w'⟩
    · rw [hexec] at hdeliver
      exact ⟨hdeliver, fun h => by cases h⟩
    · rw [hexec] at hdeliver
      refine ⟨hdeliver.1, fun _ ref href hreached => ?_⟩
      rw [hresolve] at href
      cases href
      exact hdeliver.2 hreached

/-- A push to any devices puts at most the table over what engines and logs hold, and the stores of the
devices where it is done hold the table afterwards. -/
theorem pushes_pushAll (hw : Consistent w) (hledger : Ledger w out) (networked : Bool) (id : String)
    (options : Options) (hs : s.Represented) (devices : List String) (outcome : SyncOutcome) :
    Pushes s w ((pushAll networked id options (s.scan []) devices outcome).run w).2 ∧
      ∀ device, outcome.get? device ≠ some .done →
        ((pushAll networked id options (s.scan []) devices outcome).run w).1.get? device =
          some .done →
        Reaches s id options w
          ((pushAll networked id options (s.scan []) devices outcome).run w).2 device := by
  induction devices generalizing w outcome with
  | nil => exact ⟨.refl s w, fun device hbefore hafter => absurd hafter hbefore⟩
  | cons first devices ih =>
      obtain ⟨hpush, hreaches⟩ := pushes_pushTo hw hledger networked id options hs first
      have hevolves := evolves_pushTo hw networked id options hs first
      rw [pushAll, StateT.run_bind]
      generalize (pushTo networked id options (s.scan []) first).run w = r at hpush hreaches hevolves
      obtain ⟨status, w₁⟩ := r
      obtain ⟨hrest, hlater⟩ := ih (hw.moves hevolves.moves) (hledger.steady hpush.steady)
        (outcome.insert first status)
      refine ⟨hpush.trans hrest, fun device hbefore hafter ref hresolve hreached => ?_⟩
      -- The device was reached first, or by one of the later pushes, or by both.
      by_cases hdone : (outcome.insert first status).get? device = some .done
      · rw [SortedMap.get?_insert] at hdone
        split at hdone
        · rename_i heq
          subst heq
          have hkept := hreaches (Option.some.inj hdone) ref hresolve hreached
          have hover := hrest.kept (hledger.steady hpush.steady) ref id options
          rw [hkept] at hover
          exact hover.of_overlay
        · exact absurd hdone hbefore
      · have hkept := hlater device hdone hafter ref ((hpush.ways.resolve device).trans hresolve)
          (by rwa [hpush.steady.loans])
        exact (hpush.kept hledger ref id options).overlay hkept

end Devices

/-! ## Sync requests -/

section Requests

variable {w w' : World} {out : List Borrowing}

theorem SameBooks.kept_eq (h : SameBooks w w') (ref : ManagerRef) (id : String) (options : Options) :
    w'.kept ref id options = w.kept ref id options := by
  unfold kept content
  rw [h.loans, h.ways.owners, h.disk, h.engines]

/-- What a request pushes is what the engine holds at the moment of the request. -/
theorem ensures_sync_pushes (hw : Consistent w) (hledger : Ledger w out) (handle : Handle)
    (devices : List String) (mode : SyncMode) :
    (sync handle devices mode).Ensures w
      (fun outcome w' => Pushes (content handle w) w w' ∧
        ∃ e, w.engines.get? handle.engine = some e ∧
          ∀ device, outcome.get? device = some .done →
            Reaches (content handle w) e.id e.options w w' device)
      fun _ w' => Pushes (content handle w) w w' := by
  unfold Ensures
  have hcounted := setsFaults_counted handle .sync w
  have hbooks := hcounted.sameBooks
  have hguarded := hbooks.pushes (content handle w)
  rcases exec_sync_cases handle devices mode w with
    ⟨err, -, hexec⟩ | ⟨-, e, outcome, w', he, hpush, hexec⟩
  · rw [hexec]
    exact hguarded
  · rw [hexec]
    obtain ⟨hpushes, hreaches⟩ := pushes_pushAll (hw.tame hcounted.tame) (hledger.steady hbooks.steady)
      e.networked e.id e.options (hw.represented he) devices ∅
    rw [hpush] at hpushes hreaches
    rw [content_of_get? he] at hguarded ⊢
    refine ⟨hguarded.trans hpushes, e, he, ?_⟩
    intro device hdone ref hresolve hreached
    have hbefore : (∅ : SyncOutcome).get? device ≠ some .done := by simp
    rw [← hbooks.kept_eq]
    exact hreaches device hbefore hdone ref ((hbooks.ways.resolve device).trans hresolve)
      (by rwa [hbooks.loans])

end Requests

end ObjectStore.World
