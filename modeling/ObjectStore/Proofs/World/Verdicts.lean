import ObjectStore.Proofs.World.Deliveries

/-!
# Whether a manager takes a delivery

A delivery may leave directories and files behind also where it is refused, and so what becomes of it
does not follow from the world before it alone. But the first delivery to a manager decides what becomes
of all others: where it was taken all others are taken (`Takes`), and where it was refused all others are
refused (`Refuses`). Deliveries to other managers do not change that, as long as their stores lie at other
places.

Main statements: `Delivers.kept_eq`, `Delivers.verdict`, `Verdict.delivers` and `Verdict.of_round`.
-/

namespace ObjectStore.World

open ObjectStore.Action
open Engine (logPlace logTable Ready Barred Recordable)

/-! ## What a delivery leaves to other stores -/

section Rounds

variable {s : Table} {w w' : World} {ref r : ManagerRef} {id : String} {options : Options}

/-- The same directories are held. -/
theorem Round.isDirectoryHeld_eq (hround : Round s ref id options w w') (h : Accounted w) :
    w'.isDirectoryHeld = w.isDirectoryHeld := by
  funext place
  rw [Bool.eq_iff_iff, isDirectoryHeld_iff, isDirectoryHeld_iff]
  constructor
  · rintro ⟨r, e', he', hheld, hplace⟩
    rw [hround.held] at hheld
    obtain ⟨e, he⟩ := h.has_of_held hheld
    obtain ⟨e₁, he₁, hsame, -⟩ := hround.engines he
    rw [he'] at he₁
    cases he₁
    exact ⟨r, e, he, hheld, hsame.directory.symm.trans hplace⟩
  · rintro ⟨r, e, he, hheld, hplace⟩
    obtain ⟨e', he', hsame, -⟩ := hround.engines he
    exact ⟨r, e', he', (hround.held r).trans hheld, hsame.directory.trans hplace⟩

/-- The log of a store at a place of its own is not touched by a delivery to another manager. -/
theorem Round.content?_eq_of_alone (hround : Round s ref id options w w')
    (hheld : w.isManagerHeld ref = true) (halone : w.Alone r id options) (hne : r ≠ ref)
    {place : List String} (hplace : w.storePlace? r id options = some place) :
    w'.disk.content? (logPlace place) = w.disk.content? (logPlace place) :=
  hround.logs (halone ref place hne.symm hheld hplace)

/-- A store at a place of its own keeps what it keeps over a delivery to another manager. -/
theorem Round.kept_eq_of_alone (hround : Round s ref id options w w') (h : Accounted w)
    (hheld : w.isManagerHeld ref = true) (halone : w.Alone r id options) (hne : r ≠ ref) :
    w'.kept r id options = w.kept r id options := by
  have hloan' := hround.loans r id
  cases hloan : w.loan? r id with
  | some loan =>
      rw [hloan] at hloan'
      obtain ⟨-, e, he, -⟩ := h.booked.lent hloan
      -- The engine that the other manager may have on loan is another one.
      obtain ⟨e', he', -⟩ := hround.engines he
      rw [kept_of_loan hloan, kept_of_loan hloan', content_of_get? (e := e') (by exact he'),
        content_of_get? (e := e) (by exact he)]
      exact hround.untouched he he' fun loan' hother hengine => hne (h.booked.apart hloan hother hengine.symm)
  | none =>
      rw [hloan] at hloan'
      rw [kept_of_not_lent hloan, kept_of_not_lent hloan', hround.storePlace?_eq h.booked]
      cases hplace : w.storePlace? r id options with
      | none => rfl
      | some place => exact Engine.logTable_congr (hround.content?_eq_of_alone hheld halone hne hplace)

end Rounds

/-! ## Whether a store is lent -/

/-- Where a manager lends a store from, if the paths in question can be opened. -/
inductive Origin (w : World) (ref : ManagerRef) (id : String) (options : Options)
    (opens : String → Prop) : Prop where
  | lent {loan : Loan} {e : Engine} : w.loan? ref id = some loan →
      w.engines.get? loan.engine = some e → e.options.sameLayout options = true →
      Origin w ref id options opens
  | memory : w.loan? ref id = none → (w.owner? ref).isSome → options.encrypted = false →
      options.memoryOnly = true → Origin w ref id options opens
  | directory {app user base : String} : w.loan? ref id = none → options.encrypted = false →
      options.memoryOnly = false → w.owner? ref = some (app, user, some base) →
      opens (Manager.storeDirectory app user base id options) → Origin w ref id options opens

/-- A manager lends a store, if the path of its directory can be opened. -/
structure Lendable (w : World) (ref : ManagerRef) (id : String) (options : Options)
    (opens : String → Prop) : Prop where
  name : Manager.checkId id = .ok ()
  origin : Origin w ref id options opens

section Lendable

variable {s : Table} {w w' : World} {ref : ManagerRef} {id : String} {options : Options}
  {opens opens' : String → Prop}

theorem Lendable.mono (h : Lendable w ref id options opens)
    (hopens : ∀ path, w.storePlace? ref id options = some (Path.place path) → opens path →
      opens' path) : Lendable w ref id options opens' := by
  refine ⟨h.name, ?_⟩
  cases h.origin with
  | lent hloan he hlayout => exact .lent hloan he hlayout
  | memory hnone howner hplain hmemory => exact .memory hnone howner hplain hmemory
  | directory hnone hplain hmemory howner hpath =>
      refine .directory hnone hplain hmemory howner (hopens _ ?_ hpath)
      exact storePlace?_of_directory hnone hmemory howner

/-- Deliveries leave the books and the names by which stores are found. -/
theorem Leaves.lendable_iff (hleaves : Leaves s w w') (h : Booked w) (ref : ManagerRef) (id : String)
    (options : Options) (opens : String → Prop) :
    Lendable w' ref id options opens ↔ Lendable w ref id options opens := by
  have hloan := hleaves.loans ref id
  have howner := hleaves.ways.owners ref
  constructor
  · rintro ⟨hname, horigin⟩
    refine ⟨hname, ?_⟩
    cases horigin with
    | @lent loan e' hloan' he' hlayout =>
        rw [hloan] at hloan'
        obtain ⟨-, e, he, -⟩ := h.lent hloan'
        obtain ⟨e₁, he₁, hsame, -⟩ := hleaves.engines he
        rw [he'] at he₁
        cases he₁
        exact .lent hloan' he (hsame.options ▸ hlayout)
    | memory hnone hsome hplain hmemory =>
        exact .memory (hloan.symm.trans hnone) (howner ▸ hsome) hplain hmemory
    | directory hnone hplain hmemory howner' hpath =>
        exact .directory (hloan.symm.trans hnone) hplain hmemory (howner.symm.trans howner') hpath
  · rintro ⟨hname, horigin⟩
    refine ⟨hname, ?_⟩
    cases horigin with
    | lent hloan' he hlayout =>
        obtain ⟨e', he', hsame, -⟩ := hleaves.engines he
        exact .lent (hloan.trans hloan') he' (hsame.options ▸ hlayout)
    | memory hnone hsome hplain hmemory =>
        exact .memory (hloan.trans hnone) (howner ▸ hsome) hplain hmemory
    | directory hnone hplain hmemory howner' hpath =>
        exact .directory (hloan.trans hnone) hplain hmemory (howner.trans howner') hpath

/-- What was lent can be lent, if what was opened can be opened. -/
theorem Lends.lendable {engine : EngineRef} (h : Lends w ref id options engine w')
    (hpermits : Permits w ref id options)
    (hopens : ∀ path networked e, w'.engines.get? engine = some e →
      Engine.openDirectory path id options networked w.isDirectoryHeld w.disk = (.ok e, w'.disk) →
      opens path) : Lendable w ref id options opens := by
  refine ⟨hpermits.name, ?_⟩
  cases h.source with
  | again hloan hengine he hlayout => exact .lent hloan (hengine ▸ he) hlayout
  | @first m e hnone hnext hm hopens' hengines =>
      have hloans : m.loans.get? id = none := by simpa [loan?, hm] using hnone
      have hplain := hpermits.plain m hm hloans
      have he : w'.engines.get? engine = some e := by simp [hengines, SortedMap.get?_insert]
      cases hopens' with
      | memory hmemory => exact .memory hnone (by simp [owner?, hm]) hplain hmemory
      | directory hmemory hbase hopen =>
          exact .directory hnone hplain hmemory (by simp [owner?, hm, hbase])
            (hopens _ _ _ he hopen)

/-- An id that passes is the name of a file. -/
theorem plain_of_checkId (h : Manager.checkId id = .ok ()) :
    id ≠ "" ∧ '/' ∉ id.toList ∧ id ≠ "." := by
  unfold Manager.checkId at h
  split at h
  · cases h
  · rename_i hempty
    split at h
    · cases h
    · rename_i hplain
      simp only [not_or] at hplain
      exact ⟨hempty, hplain.1, hplain.2.2.1⟩

/-- The path of a store's directory ends in the id of the store. -/
theorem names_storeDirectory (hname : Manager.checkId id = .ok ()) (app user base : String)
    (options : Options) :
    ∃ front, Path.names (Manager.storeDirectory app user base id options) = front ++ [id] := by
  obtain ⟨hempty, hslash, -⟩ := plain_of_checkId hname
  unfold Manager.storeDirectory
  split
  · exact Path.exists_names_join _ hempty hslash
  · exact Path.exists_names_join _ hempty hslash

/-- What was not lent cannot be lent, if what was not opened cannot be opened. -/
theorem Denies.not_lendable (h : Denies w ref id options w')
    (hopens : ∀ path networked err disk, Engine.openDirectory path id options networked
      w.isDirectoryHeld w.disk = (.error err, disk) → w' = { w with disk } →
      (∃ front, Path.names path = front ++ [id]) → ¬ opens path) :
    ¬ Lendable w ref id options opens := by
  rintro ⟨hname, horigin⟩
  have hloan {m : Manager} (hm : w.managers.get? ref = some m) :
      w.loan? ref id = m.loans.get? id := by simp [loan?, hm]
  have howner {m : Manager} (hm : w.managers.get? ref = some m) :
      w.owner? ref = some (m.app, m.user, m.base) := by simp [owner?, hm]
  cases h with
  | unknown hm =>
      cases horigin with
      | lent hloan' => simp [loan?, hm] at hloan'
      | memory _ hsome => simp [owner?, hm] at hsome
      | directory _ _ _ howner' => simp [owner?, hm] at howner'
  | name hbad =>
      rw [hname] at hbad
      cases hbad
  | lost hm hloan' hnone =>
      rw [← hloan hm] at hloan'
      cases horigin with
      | lent hloan₁ he =>
          rw [hloan'] at hloan₁
          cases hloan₁
          rw [hnone] at he
          cases he
      | memory hno => simp [hloan'] at hno
      | directory hno => simp [hloan'] at hno
  | layout hm hloan' he hlayout =>
      rw [← hloan hm] at hloan'
      cases horigin with
      | lent hloan₁ he₁ hlayout₁ =>
          rw [hloan'] at hloan₁
          cases hloan₁
          rw [he] at he₁
          cases he₁
          rw [hlayout] at hlayout₁
          cases hlayout₁
      | memory hno => simp [hloan'] at hno
      | directory hno => simp [hloan'] at hno
  | @unopened m _ hm hloan' hunopened =>
      rw [← hloan hm] at hloan'
      cases horigin with
      | lent hloan₁ => simp [hloan'] at hloan₁
      | memory _ _ hplain hmemory =>
          cases hunopened with
          | encrypted hencrypted => simp [hplain] at hencrypted
          | base hdisk => simp [hmemory] at hdisk
          | directory hdisk => simp [hmemory] at hdisk
      | directory _ hplain _ howner' hpath =>
          rw [howner hm] at howner'
          cases hunopened with
          | encrypted hencrypted => simp [hplain] at hencrypted
          | base _ hbase => simp [hbase] at howner'
          | directory _ hbase hopen =>
              rw [hbase] at howner'
              cases howner'
              exact hopens _ _ _ _ hopen rfl (names_storeDirectory hname _ _ _ _) hpath

end Lendable

/-! ## Whether entries are put -/

/-- Whether the switches of a manager make calls through its wrappers fail. -/
def switchedOff (w : World) (ref : ManagerRef) (call : EngineCall) : Bool :=
  (w.switches? ref).join.any fun faults => faults.blocks call

theorem blocks_wrapped (serial : Nat) (ref : ManagerRef) (engine : EngineRef) (call : EngineCall)
    (w : World) : blocks (.wrapped serial ref engine) call w = w.switchedOff ref call := by
  cases hm : w.managers.get? ref with
  | none => simp [blocks, faults?, switchedOff, switches?, hm]
  | some m =>
      cases hguard : m.guard <;>
        simp [blocks, faults?, switchedOff, switches?, hm, hguard, Faults.blocks_switches]

/-- The switches alone decide which calls fail. -/
theorem blocks_congr {w w' : World} (h : ∀ ref, w'.switches? ref = w.switches? ref) (handle : Handle)
    (call : EngineCall) : blocks handle call w' = blocks handle call w := by
  cases handle with
  | direct engine => rfl
  | wrapped serial ref engine => rw [blocks_wrapped, blocks_wrapped, switchedOff, h, ← switchedOff]

/-- A store takes a batch once it is lent. -/
structure Puttable (b : Batch) (w : World) (ref : ManagerRef) (id : String) (options : Options) :
    Prop where
  unblocked : w.switchedOff ref .put = false
  lent : ∀ {loan e}, w.loan? ref id = some loan → w.engines.get? loan.engine = some e → e.Writes b
  opened : w.loan? ref id = none → options.memoryOnly = false → Recordable b

/-- What a put comes to for the engine behind the handle. -/
inductive PutEnds (es : List Entry) (e : Engine) (engine : EngineRef) (w : World) :
    Except StorageError Unit → World → Prop where
  | ok {e' : Engine} {w' : World} : e.write (.put es) w.disk = .ok (e', w'.disk) →
      w'.engines.get? engine = some e' → PutEnds es e engine w (.ok ()) w'
  | error {err : StorageError} {w' : World} : w'.engines.get? engine = some e → w'.disk = w.disk →
      PutEnds es e engine w (.error err) w'

section Puts

variable {s : Table} {w w₁ w' : World} {ref : ManagerRef} {id : String} {options : Options}
  {handle : Handle} {e : Engine} {es : List Entry} {written : Except StorageError Unit}

theorem exec_put_ok_iff (he : w.engines.get? handle.engine = some e) (es : List Entry) :
    ((put handle es).exec w).1 = .ok () ↔ blocks handle .put w = false ∧ e.Writes (.put es) := by
  rw [exec_put_eq, refusal?, ← Engine.write_eq_ok_iff (d := w.disk)]
  cases blocks handle .put w with
  | true => simp
  | false =>
      cases hwrite : e.write (.put es) w.disk with
      | error err => simp [he, hwrite]
      | ok written => simp [he, hwrite, Prod.ext_iff]

theorem putEnds_put (he : w.engines.get? handle.engine = some e) (es : List Entry) :
    PutEnds es e handle.engine w ((put handle es).exec w).1 ((put handle es).exec w).2 := by
  have hcounted : (counted handle .put w).engines.get? handle.engine = some e := by
    rw [engines_counted, he]
  rw [exec_put_eq]
  unfold refusal?
  cases blocks handle .put w with
  | true => exact .error hcounted (disk_counted handle .put w)
  | false =>
      simp only [he, Bool.false_eq_true, if_false]
      cases hwrite : e.write (.put es) w.disk with
      | error err => exact .error hcounted (disk_counted handle .put w)
      | ok written =>
          simp only [applied, hcounted, disk_counted, hwrite]
          exact .ok hwrite (by simp [SortedMap.get?_insert])

/-- Calls through what a manager has lent meet the switches of the manager. -/
theorem LendsHandle.blocks_eq (h : LendsHandle w ref id options handle w') (call : EngineCall) :
    blocks handle call w' = w.switchedOff ref call := by
  unfold switchedOff
  rw [← h.guards.1]
  cases h with
  | direct _ hm hguard => simp [blocks, faults?, switches?, hm, hguard]
  | @wrapped m guard engine w₁ => exact blocks_wrapped w₁.next ref engine call _

/-- Whether a put into what was lent succeeds is decided before the loan. -/
theorem LendsHandle.put_ok_iff (h : Accounted w) (hlends : LendsHandle w ref id options handle w₁)
    (es : List Entry) :
    ((put handle es).exec w₁).1 = .ok () ↔ Puttable (.put es) w ref id options := by
  obtain ⟨e, he, -, hsupplies⟩ := h.booked.supplies hlends.lends
  rw [exec_put_ok_iff he, hlends.blocks_eq]
  cases hsupplies with
  | lent hloan hengine he' =>
      constructor
      · rintro ⟨hblocks, hwrites⟩
        refine ⟨hblocks, fun {loan₁ e₁} hloan₁ he₁ => ?_, fun hnone => by simp [hloan] at hnone⟩
        rw [hloan] at hloan₁
        cases hloan₁
        rw [hengine, he'] at he₁
        cases he₁
        exact hwrites
      · intro hputtable
        exact ⟨hputtable.unblocked, hputtable.lent hloan (hengine ▸ he')⟩
  | memory hnone _ hmemory he =>
      have hwrites : e.Writes (.put es) := by
        rw [he]
        exact ⟨rfl, .inl rfl⟩
      constructor
      · rintro ⟨hblocks, -⟩
        exact ⟨hblocks, fun hloan => by simp [hnone] at hloan, fun _ hdisk => by simp [hmemory] at hdisk⟩
      · intro hputtable
        exact ⟨hputtable.unblocked, hwrites⟩
  | directory hnone _ hmemory _ hopen =>
      have hdirectory := Engine.directory?_of_openDirectory hopen
      constructor
      · rintro ⟨hblocks, hwrites⟩
        refine ⟨hblocks, fun hloan => by simp [hnone] at hloan, fun _ _ => ?_⟩
        exact hwrites.recordable.resolve_left (by simp [hdirectory])
      · intro hputtable
        exact ⟨hputtable.unblocked, (engine_of_openDirectory hopen).2.2,
          .inr (hputtable.opened hnone hmemory)⟩

/-- Deliveries change nothing about what stores take. -/
theorem Leaves.puttable_iff (hleaves : Leaves s w w') (h : Booked w) (b : Batch) (ref : ManagerRef)
    (id : String) (options : Options) :
    Puttable b w' ref id options ↔ Puttable b w ref id options := by
  have hloan := hleaves.loans ref id
  have hblocks : w'.switchedOff ref .put = w.switchedOff ref .put := by
    unfold switchedOff
    rw [hleaves.switches]
  constructor
  · intro hputtable
    refine ⟨hblocks ▸ hputtable.unblocked, fun {loan e} hloan' he => ?_, ?_⟩
    · obtain ⟨e', he', hsame, -⟩ := hleaves.engines he
      exact (hsame.writes_iff b).mp (hputtable.lent (hloan.trans hloan') he')
    · rw [← hloan]
      exact hputtable.opened
  · intro hputtable
    refine ⟨hblocks.trans hputtable.unblocked, fun {loan e'} hloan' he' => ?_, ?_⟩
    · rw [hloan] at hloan'
      obtain ⟨-, e, he, -⟩ := h.lent hloan'
      obtain ⟨e₁, he₁, hsame, -⟩ := hleaves.engines he
      rw [he'] at he₁
      cases he₁
      exact (hsame.writes_iff b).mpr (hputtable.lent hloan' he)
    · rw [hloan]
      exact hputtable.opened

end Puts

/-! ## What the store keeps -/

section Kept

variable {s : Table} {w w' : World} {ref : ManagerRef} {id : String} {options : Options}
  {engine : EngineRef} {e : Engine} {written : Except StorageError Unit}

/-- The engine gets the table where the put succeeds, and then its log has the table too. -/
theorem PutEnds.exists_engine (h : PutEnds (s.scan []) e engine w written w') :
    ∃ e', w'.engines.get? engine = some e' ∧
      (written = .ok () → e'.table = e.table.overlay s) ∧
      (written ≠ .ok () → e'.table = e.table) ∧
      ∀ {place batches bs}, e.Persists w.disk place batches bs →
        logTable w'.disk place = e'.table := by
  cases h with
  | @ok e' _ hwrite he' =>
      refine ⟨e', he', fun _ => ?_, fun hbad => absurd rfl hbad, fun {place batches bs} hpersists => ?_⟩
      · rw [(Engine.table_of_write hwrite).2.2.2, Table.scan_nil]
        rfl
      · rcases hpersists.write hwrite with ⟨-, rfl, hdisk⟩ | ⟨record, -, -, hafter⟩
        · rw [hdisk, hpersists.logTable_eq]
        · exact hafter.logTable_eq
  | error he' hdisk =>
      refine ⟨e, he', fun hok => (by cases hok), fun _ => rfl, fun {place batches bs} hpersists => ?_⟩
      rw [hdisk, hpersists.logTable_eq]

/-- A store in memory that is not on loan keeps nothing. -/
theorem kept_of_memory (hloan : w.loan? ref id = none) (hmemory : options.memoryOnly = true) :
    w.kept ref id options = ∅ := by
  simp [kept, hloan, hmemory]

theorem Denies.kept_eq (h : Denies w ref id options w') (r : ManagerRef) :
    w'.kept r id options = w.kept r id options := by
  obtain ⟨disk, hext, rfl⟩ := h.refused.exists_extends
  unfold kept
  split
  · rename_i loan hloan
    rw [show w.loan? r id = some loan from hloan]
    rfl
  · rename_i hloan
    rw [show w.loan? r id = none from hloan]
    simp only [Engine.logTable_of_extends hext]
    rfl

/-- A delivery that is refused changes nothing, and one that is taken puts the table over what the store
keeps, if the store is on loan or on disk. -/
theorem Delivers.kept_eq (hdelivers : Delivers w ref id options (s.scan []) written w')
    (h : Accounted w) :
    (written ≠ .ok () → w'.kept ref id options = w.kept ref id options) ∧
      (written = .ok () → (w.loan? ref id).isSome ∨ options.memoryOnly = false →
        w'.kept ref id options = (w.kept ref id options).overlay s) := by
  have hround := hdelivers.round h
  have hloan' := hround.loans ref id
  cases hdelivers with
  | denied hdenies => exact ⟨fun _ => hdenies.kept_eq ref, fun hok => by cases hok⟩
  | @lent handle w₁ _ hlends _ hreturned =>
      have hreturns := (sameBooks_unwrapped ref handle _).returns hreturned.returns
      have hput := putsInto_put (h.lends hlends).1 handle s
      obtain ⟨e, he, -, hsupplies⟩ := h.booked.supplies hlends.lends
      obtain ⟨e₂, he₂, hover, hsame, hlog⟩ := (putEnds_put he (s.scan [])).exists_engine
      rw [← hsupplies.table_eq]
      cases hloan : w.loan? ref id with
      | some loan =>
          -- The engine on loan is still there, with what it holds after the put.
          rw [hloan] at hloan'
          have hkept : w'.kept ref id options = e₂.table := by
            rw [kept_of_loan hloan']
            refine content_of_get? ?_
            cases hsupplies with
            | lent hloan₁ hengine hold =>
                rw [hloan] at hloan₁
                cases hloan₁
                rw [Handle.engine, hengine]
                exact h.booked.engines_of_round hlends.lends hput.loans hreturns hold he₂
            | memory hnone => simp [hloan] at hnone
            | directory hnone => simp [hloan] at hnone
          rw [hkept]
          exact ⟨hsame, fun hok _ => hover hok⟩
      | none =>
          rw [hloan] at hloan'
          cases hmemory : options.memoryOnly with
          | true =>
              rw [hsupplies.table_eq, kept_of_memory hloan hmemory, kept_of_memory hloan' hmemory]
              exact ⟨fun _ => rfl, fun _ hreached => by simp at hreached⟩
          | false =>
              -- What the log builds after the return is what it built after the put.
              have hkept : w'.kept ref id options = e₂.table := by
                rw [kept_of_not_lent hloan', hround.storePlace?_eq h.booked, ← hsupplies.directory?_eq]
                cases hplace : e.directory? with
                | some place =>
                    obtain ⟨batches, bs, hpersists⟩ := hsupplies.persists hloan hplace
                    rw [Option.elim_some, hreturns.disk, hlog hpersists]
                | none =>
                    cases hsupplies with
                    | lent hloan₁ => simp [hloan] at hloan₁
                    | memory _ _ hmemory₁ => simp [hmemory] at hmemory₁
                    | directory _ _ _ _ hopen =>
                        rw [Engine.directory?_of_openDirectory hopen] at hplace
                        cases hplace
              rw [hkept]
              exact ⟨hsame, fun hok _ => hover hok⟩

end Kept

/-! ## Verdicts -/

/-- Every delivery from now on is taken. -/
structure Takes (b : Batch) (w : World) (ref : ManagerRef) (id : String) (options : Options) : Prop where
  lendable : Lendable w ref id options fun path => Ready path w.isDirectoryHeld w.disk
  puttable : Puttable b w ref id options

/-- Every delivery from now on is refused: the store is not lent, or it does not take the batch. -/
def Refuses (b : Batch) (w : World) (ref : ManagerRef) (id : String) (options : Options) : Prop :=
  ¬ Lendable w ref id options (fun path => ¬ Barred path options w.isDirectoryHeld w.disk) ∨
    ¬ Puttable b w ref id options

section Verdicts

variable {s : Table} {w w' : World} {ref r : ManagerRef} {id : String} {options : Options}
  {written : Except StorageError Unit} {es : List Entry} {b : Batch}

theorem Takes.delivers (htakes : Takes (.put es) w ref id options) (h : Accounted w)
    (hdelivers : Delivers w ref id options es written w') : written = .ok () := by
  cases hdelivers with
  | denied hdenies =>
      refine absurd htakes.lendable (hdenies.not_lendable fun path networked err disk hopen _ _ hready => ?_)
      obtain ⟨e, disk', hok⟩ := hready.openDirectory id options networked
      rw [hopen] at hok
      cases hok
  | lent hlends => exact (hlends.put_ok_iff h es).mpr htakes.puttable

theorem Refuses.delivers (hrefuses : Refuses (.put es) w ref id options) (h : Accounted w)
    (hdelivers : Delivers w ref id options es written w') : written ≠ .ok () := by
  intro hok
  cases hdelivers with
  | denied => cases hok
  | lent hlends hpermits =>
      rcases hrefuses with hlendable | hputtable
      · refine hlendable (hlends.lends.lendable hpermits fun path networked e _ hopen hbarred => ?_)
        obtain ⟨err, herr⟩ := hbarred.openDirectory id networked hopen
        cases herr
      · exact hputtable ((hlends.put_ok_iff h es).mp hok)

/-- Where a delivery was taken, all others are taken. -/
theorem Delivers.takes (hdelivers : Delivers w ref id options (s.scan []) written w')
    (h : Accounted w) (hok : written = .ok ()) : Takes (.put (s.scan [])) w' ref id options := by
  have hround := hdelivers.round h
  cases hdelivers with
  | denied => cases hok
  | @lent handle w₁ _ hlends hpermits hreturned =>
      have hreturns := (sameBooks_unwrapped ref handle _).returns hreturned.returns
      refine ⟨(hround.lendable_iff h.booked ref _ _ _).mpr (hlends.lends.lendable hpermits ?_),
        (hround.puttable_iff h.booked _ ref _ _).mpr ((hlends.put_ok_iff h _).mp hok)⟩
      intro path networked e he hopen
      have hopened := Engine.opened_of_openDirectory hopen
      have hput := putsInto_put (h.lends hlends).1 handle s
      have hends := putEnds_put he (s.scan [])
      rw [hround.isDirectoryHeld_eq h, hreturns.disk]
      refine hopened.ready.of_grows rfl (hput.grows options.createIfMissing) ?_
      -- The log got the record of the batch at most.
      obtain ⟨batches, bs, hpersists⟩ := hopened.persists
      generalize ((put handle (s.scan [])).exec w₁).1 = written at hends hok
      cases hends with
      | error => cases hok
      | ok hwrite =>
          rcases hpersists.write hwrite with ⟨-, -, hdisk⟩ | ⟨record, -, -, hafter⟩
          · exact ⟨batches, bs, hpersists.encoded, by rw [hdisk, hpersists.log]⟩
          · exact ⟨_, _, hafter.encoded, hafter.log⟩

/-- Where a delivery was refused, all others are refused. -/
theorem Delivers.refuses (hdelivers : Delivers w ref id options (s.scan []) written w')
    (h : Accounted w) (hbad : written ≠ .ok ()) : Refuses (.put (s.scan [])) w' ref id options := by
  have hround := hdelivers.round h
  cases hdelivers with
  | denied hdenies =>
      refine .inl fun hlendable => ?_
      rw [hround.lendable_iff h.booked] at hlendable
      refine hdenies.not_lendable ?_ hlendable
      intro path networked err disk hopen hw' ⟨front, hnames⟩ hfree
      refine hfree ?_
      rw [hround.isDirectoryHeld_eq h, hw']
      exact Engine.barred_of_openDirectory hnames (plain_of_checkId hlendable.name).2.2 hopen
  | lent hlends =>
      refine .inr fun hputtable => hbad ?_
      exact (hlends.put_ok_iff h _).mpr ((hround.puttable_iff h.booked _ ref _ _).mp hputtable)

section Others

variable (h : Accounted w) (hround : Round s r id options w w')
  (hlog : ∀ place, w.storePlace? ref id options = some place →
    w'.disk.content? (logPlace place) = w.disk.content? (logPlace place))

include h hround hlog

/-- A delivery that leaves the log of a store alone leaves it such that it goes on taking. -/
theorem Takes.of_round (htakes : Takes b w ref id options) : Takes b w' ref id options := by
  refine ⟨(hround.lendable_iff h.booked ref _ _ _).mpr (htakes.lendable.mono fun path hplace hready => ?_),
    (hround.puttable_iff h.booked b ref _ _).mpr htakes.puttable⟩
  refine hready.of_grows (by rw [hround.isDirectoryHeld_eq h]) hround.grows ?_
  rw [hlog _ hplace]
  exact hready.logged

/-- A delivery that leaves the log of a store alone leaves it such that it goes on refusing. -/
theorem Refuses.of_round (hrefuses : Refuses b w ref id options) : Refuses b w' ref id options := by
  rcases hrefuses with hlendable | hputtable
  · refine .inl fun hlendable' => hlendable ?_
    rw [hround.lendable_iff h.booked] at hlendable'
    refine hlendable'.mono fun path hplace hfree hbarred => hfree ?_
    refine hbarred.of_grows (by rw [hround.isDirectoryHeld_eq h]) hround.grows fun bs hbs => ?_
    rw [hlog _ hplace, hbs]
  · exact .inr fun hputtable' => hputtable ((hround.puttable_iff h.booked b ref _ _).mp hputtable')

end Others

/-- What becomes of every delivery from now on. -/
inductive Verdict (b : Batch) (w : World) (ref : ManagerRef) (id : String) (options : Options) :
    Bool → Prop where
  | taken : Takes b w ref id options → Verdict b w ref id options true
  | refused : Refuses b w ref id options → Verdict b w ref id options false

/-- A delivery goes as the verdict says. -/
theorem Verdict.delivers {taken : Bool} (hverdict : Verdict (.put es) w ref id options taken)
    (h : Accounted w) (hdelivers : Delivers w ref id options es written w') :
    written = .ok () ↔ taken = true := by
  cases hverdict with
  | taken htakes => simp [htakes.delivers h hdelivers]
  | refused hrefuses => simp [hrefuses.delivers h hdelivers]

/-- After a delivery there is a verdict, and it is what became of the delivery. -/
theorem Delivers.verdict {taken : Bool} (hdelivers : Delivers w ref id options (s.scan []) written w')
    (h : Accounted w) (htaken : written = .ok () ↔ taken = true) :
    Verdict (.put (s.scan [])) w' ref id options taken := by
  cases taken with
  | true => exact .taken (hdelivers.takes h (htaken.mpr rfl))
  | false => exact .refused (hdelivers.refuses h fun hok => by cases htaken.mp hok)

/-- A delivery that leaves the log of a store alone does not change the verdict about it. -/
theorem Verdict.of_round {taken : Bool} (hverdict : Verdict b w ref id options taken)
    (h : Accounted w) (hround : Round s r id options w w')
    (hlog : ∀ place, w.storePlace? ref id options = some place →
      w'.disk.content? (logPlace place) = w.disk.content? (logPlace place)) :
    Verdict b w' ref id options taken := by
  cases hverdict with
  | taken htakes => exact .taken (htakes.of_round h hround hlog)
  | refused hrefuses => exact .refused (hrefuses.of_round h hround hlog)

end Verdicts

end ObjectStore.World
