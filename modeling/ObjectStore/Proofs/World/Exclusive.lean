import ObjectStore.Proofs.World.Lifecycle
import ObjectStore.Proofs.World.Recovery
import ObjectStore.Proofs.World.Writers

/-!
# One writer for each directory

Directories are opened by themselves, by managers that lend, and by depots that are opened; two managers may
well have the same directory in mind. In whatever order engines are opened, lent, returned, closed and let
go of, a directory has one engine at most that is still held, and that engine holds what the log builds. As
long as it is held, closed or not, every other opening finds the directory busy and changes nothing. Once
nobody holds it, the next opening gives what the last engine held.

Main statement: `exclusive_of_orderly`.
-/

namespace ObjectStore.World

open ObjectStore.Action
open Engine (logPlace)

/-! ## Ways to open a directory -/

/-- What callers do to have a directory opened. -/
inductive Opening where
  | direct (path id : String) (options : Options) (networked : Bool)
  | lend (ref : ManagerRef) (id : String) (options : Options)
  | start (d : Depot)

/-- An opening comes to the directory at a path: nothing else is in its way, and no loan comes before. -/
inductive ComesTo (w : World) : Opening → (path id : String) → Options → (networked : Bool) → Prop where
  | direct (path id : String) (options : Options) (networked : Bool) :
      ComesTo w (.direct path id options networked) path id options networked
  | lend {ref : ManagerRef} {id : String} {options : Options} {m : Manager} {base : String} :
      w.managers.get? ref = some m → Manager.checkId id = .ok () → m.loans.get? id = none →
      options.encrypted = false → options.memoryOnly = false → m.base = some base →
      ComesTo w (.lend ref id options) (Manager.storeDirectory m.app m.user base id options) id options
        m.networked
  | start {d : Depot} {m : Manager} :
      d.state ≠ .ready → w.managers.get? d.manager = some m → Manager.checkId d.id = .ok () →
      m.loans.get? d.id = none → d.config.options.encrypted = false →
      d.config.options.memoryOnly = false →
      ComesTo w (.start d)
        (Manager.storeDirectory m.app m.user d.config.base d.id d.config.options) d.id d.config.options
        m.networked

/-- The opening answers an error. -/
def Fails (w : World) : Opening → StorageError → World → Prop
  | .direct path id options networked, err, w' =>
    World.openDirectory path id options networked w = (.error err, w')
  | .lend ref id options, err, w' => (World.lend ref id options).exec w = (.error err, w')
  | .start d, err, w' => (World.start d).exec w = (.error (.storage err), w')

/-- The opening answers what has the engine behind it. -/
def Gives (w : World) : Opening → EngineRef → World → Prop
  | .direct path id options networked, r, w' =>
    World.openDirectory path id options networked w = (.ok r, w')
  | .lend ref id options, r, w' =>
    ∃ handle, (World.lend ref id options).exec w = (.ok handle, w') ∧ handle.engine = r
  | .start d, r, w' =>
    ∃ p handle, (World.start d).exec w = (.ok p, w') ∧ p.phase = .ready handle ∧ handle.engine = r

section Openings

variable {w : World} {ref : ManagerRef} {id path base : String} {options : Options} {networked : Bool}
  {m : Manager} {e : Engine} {disk : Disk} {err : StorageError} {d : Depot} {opening : Opening}

/-- A depot that is opened tells its manager where its stores are. -/
theorem get?_based_of_get? (hm : w.managers.get? d.manager = some m) :
    (based d w).managers.get? d.manager = some { m with base := some d.config.base } := by
  rw [get?_based, hm, Option.map_some]

theorem exec_lend_of_refused (hm : w.managers.get? ref = some m) (hid : Manager.checkId id = .ok ())
    (hloan : m.loans.get? id = none) (hencrypted : options.encrypted = false)
    (hmemory : options.memoryOnly = false) (hbase : m.base = some base)
    (hopen : Engine.openDirectory (Manager.storeDirectory m.app m.user base id options) id options
      m.networked w.isDirectoryHeld w.disk = (.error err, disk)) :
    (lend ref id options).exec w = (.error err, { w with disk }) := by
  have hstore : (openStore m id options).exec w = (.error err, { w with disk }) := by
    unfold openStore
    simp only [hencrypted, hmemory, hbase, Bool.false_eq_true, if_false, exec_bind, exec_get, exec_set,
      exec_answer, World.openDirectory, hopen]
  unfold lend lendEngine
  simp only [exec_bind, exec_managerOf hm, exec_answer, hid, hloan, hstore]

theorem exec_lend_of_opened (hm : w.managers.get? ref = some m) (hid : Manager.checkId id = .ok ())
    (hloan : m.loans.get? id = none) (hencrypted : options.encrypted = false)
    (hmemory : options.memoryOnly = false) (hbase : m.base = some base)
    (hopen : Engine.openDirectory (Manager.storeDirectory m.app m.user base id options) id options
      m.networked w.isDirectoryHeld w.disk = (.ok e, disk)) :
    ∃ handle w', (lend ref id options).exec w = (.ok handle, w') ∧ handle.engine = w.next ∧
      w'.engines = w.engines.insert w.next e ∧ w'.disk = disk := by
  have hlend := exec_lendEngine hm hid hloan hencrypted hmemory hbase hopen
  unfold lend
  simp only [exec_bind, exec_managerOf hm, hlend]
  -- A guarded manager wraps the handle, which changes neither engines nor disk.
  cases hguard : m.guard with
  | none => exact ⟨_, _, rfl, rfl, engines_modifyManager _ _ _, disk_modifyManager _ _ _⟩
  | some guard =>
      refine ⟨_, _, rfl, rfl, ?_, ?_⟩
      · exact (engines_modifyManager _ _ _).trans (engines_modifyManager _ _ _)
      · exact (disk_modifyManager _ _ _).trans (disk_modifyManager _ _ _)

/-- An opening that comes to a directory fails with what the directory says. -/
theorem ComesTo.fails (h : ComesTo w opening path id options networked)
    (hopen : Engine.openDirectory path id options networked w.isDirectoryHeld w.disk =
      (.error err, disk)) :
    ∃ w', Fails w opening err w' ∧ w'.engines = w.engines ∧ w'.disk = disk ∧
      ∀ ref id, w'.loan? ref id = w.loan? ref id := by
  cases h with
  | direct =>
      refine ⟨{ w with disk }, ?_, rfl, rfl, fun _ _ => rfl⟩
      simp only [Fails, World.openDirectory, hopen]
  | lend hm hid hloan hencrypted hmemory hbase =>
      exact ⟨{ w with disk }, exec_lend_of_refused hm hid hloan hencrypted hmemory hbase hopen, rfl, rfl,
        fun _ _ => rfl⟩
  | @start d m hstate hm hid hloan hencrypted hmemory =>
      -- The base that the manager is told stays with it, but no engine and no loan changes.
      rw [← isDirectoryHeld_based d, ← disk_based d w] at hopen
      have hlend := exec_lend_of_refused (get?_based_of_get? hm) hid hloan hencrypted hmemory rfl hopen
      refine ⟨{ based d w with disk }, ?_, engines_based d w, rfl, loan?_based d w⟩
      simp only [Fails, exec_start hstate, hlend]

/-- An opening that comes to a directory gives what the directory gives. -/
theorem ComesTo.gives (h : ComesTo w opening path id options networked)
    (hopen : Engine.openDirectory path id options networked w.isDirectoryHeld w.disk = (.ok e, disk)) :
    ∃ w', Gives w opening w.next w' ∧ w'.engines.get? w.next = some e ∧ w'.disk = disk := by
  cases h with
  | direct =>
      refine ⟨({ w with disk }.addEngine e).2, ?_, ?_, rfl⟩
      · simp only [Gives, World.openDirectory, hopen]
        rfl
      · exact (SortedMap.get?_insert _ _ _ _).trans (if_pos rfl)
  | lend hm hid hloan hencrypted hmemory hbase =>
      obtain ⟨handle, w', hlend, hengine, hengines, hdisk⟩ :=
        exec_lend_of_opened hm hid hloan hencrypted hmemory hbase hopen
      exact ⟨w', ⟨handle, hlend, hengine⟩, by rw [hengines, SortedMap.get?_insert, if_pos rfl], hdisk⟩
  | @start d m hstate hm hid hloan hencrypted hmemory =>
      rw [← isDirectoryHeld_based d, ← disk_based d w] at hopen
      obtain ⟨handle, w', hlend, hengine, hengines, hdisk⟩ :=
        exec_lend_of_opened (get?_based_of_get? hm) hid hloan hencrypted hmemory rfl hopen
      rw [next_based] at hengine hengines
      refine ⟨w', ⟨{ d with phase := .ready handle }, handle, ?_, rfl, hengine⟩, ?_, hdisk⟩
      · rw [exec_start hstate, hlend]
      · rw [hengines, SortedMap.get?_insert, if_pos rfl]

end Openings

/-! ## Every run -/

/-- What can be said of the directories of a world that comes after another one. -/
structure Exclusive (w w' : World) : Prop where
  /-- A path that leads to a directory leads there from then on. -/
  leads : ∀ path place, w.disk.find path = .ok (place, .directory) →
    ∀ id options, (Engine.prepareDirectory path id options w'.disk).1 = .ok place
  /-- A directory has one engine at most that is held. -/
  single : ∀ r r' e e' place, w'.engines.get? r = some e → w'.engines.get? r' = some e' →
    w'.isEngineHeld r = true → w'.isEngineHeld r' = true → e.directory? = some place →
      e'.directory? = some place → r = r'
  /-- An engine that is held holds what its log builds. -/
  replayed : ∀ r e place, w'.engines.get? r = some e → w'.isEngineHeld r = true →
    e.directory? = some place → ∃ bs, w'.disk.content? (logPlace place) = some bs ∧
      (Log.scan bs).damage = none ∧ Log.replay (Log.scan bs).batches = e.table
  /-- As long as an engine of a directory is held, closed or not, nobody else opens the directory. -/
  busy : ∀ opening path id options networked place, ComesTo w' opening path id options networked →
    (Engine.prepareDirectory path id options w'.disk).1 = .ok place → w'.isDirectoryHeld place = true →
      ∃ w'', Fails w' opening (.busy id) w'' ∧ w''.engines = w'.engines ∧
        (∀ ref id, w''.loan? ref id = w'.loan? ref id) ∧
          ∀ p, w''.disk.content? p = w'.disk.content? p
  /-- An engine that nobody holds any more stays as it is. -/
  rests : ∀ r e, w.engines.get? r = some e → w.isEngineHeld r = false → Rests r e w'
  /-- Once nobody holds an engine of a directory, the next one holds what the last one held. -/
  reopened : ∀ opening path id options networked place r e,
    ComesTo w' opening path id options networked →
      (Engine.prepareDirectory path id options w'.disk).1 = .ok place →
        w'.isDirectoryHeld place = false → w'.IsLast r place → w'.engines.get? r = some e →
          ∃ e' w'', Gives w' opening w'.next w'' ∧ w''.engines.get? w'.next = some e' ∧
            e'.directory? = some place ∧ e'.isClosed = false ∧ e'.table = e.table ∧
              ∀ p, w''.disk.content? p = w'.disk.content? p

section Runs

variable {w w' : World}

theorem shifts_future (h : Accounted w) (hw : Unscratched w) {events : List Event}
    (horderly : ∀ event ∈ events, event.isOrderly = true) :
    Shifts w (future w events) ∧ Unscratched (future w events) := by
  induction events generalizing w with
  | nil => exact ⟨.refl, hw⟩
  | cons event events ih =>
      -- Every event starts where the shifts of the ones before have led.
      obtain ⟨hshifts, hw'⟩ := shifts_happen h hw (horderly event List.mem_cons_self)
      obtain ⟨hrest, hw''⟩ := ih (accounted_happen h event) hw' fun event' hmem =>
        horderly event' (List.mem_cons_of_mem event hmem)
      exact ⟨hshifts.trans hrest, hw''⟩

theorem Latched.exclusive (hw : Latched w) (hshifts : Shifts w w') : Exclusive w w' := by
  have h := hw.shifts hshifts
  constructor
  case leads =>
    intro path place hfind id options
    unfold Engine.prepareDirectory
    rw [(hw.keepsDirectories hshifts).find hfind]
  case single =>
    intro r r' e e' place he he' hheld hheld' hplace hplace'
    exact (h.last ⟨e, he, hplace⟩ hheld).eq (h.last ⟨e', he', hplace'⟩ hheld')
  case replayed =>
    intro r e place he hheld hplace
    obtain ⟨batches, bs, hpersists⟩ := h.persists (h.last ⟨e, he, hplace⟩ hheld) he
    refine ⟨bs, hpersists.log, ?_⟩
    rw [Log.scan_encodeAll hpersists.encoded, hpersists.table]
    exact ⟨rfl, rfl⟩
  case busy =>
    intro opening path id options networked place hcomes hprepared hheld
    obtain ⟨r, e, he, -, hplace⟩ := isDirectoryHeld_iff.mp hheld
    have hopen : Engine.openDirectory path id options networked w'.isDirectoryHeld w'.disk = _ :=
      Engine.openDirectory_of_held hprepared (h.locked ⟨e, he, hplace⟩) hheld
    obtain ⟨w'', hfails, hengines, hdisk, hloans⟩ := hcomes.fails hopen
    refine ⟨w'', hfails, hengines, hloans, fun p => ?_⟩
    -- At most directories were made on the way, and no file was touched.
    rw [hdisk]
    exact (Engine.extends_prepareDirectory path id options w'.disk).2.1 p
  case rests => exact fun r e he hfree => hshifts.rests ⟨hfree, e, he, rfl, rfl⟩
  case reopened =>
    intro opening path id options networked place r e hcomes hprepared hfree hlast he
    -- The last engine persists its batches also when it is not held, and recovery builds them again.
    obtain ⟨batches, bs, hpersists⟩ := h.persists hlast he
    have hopen : Engine.openDirectory path id options networked w'.isDirectoryHeld w'.disk = _ :=
      Engine.openDirectory_of_persists hprepared (h.locked hlast.1) hfree hpersists
    obtain ⟨w'', hgives, he', hdisk⟩ := hcomes.gives hopen
    refine ⟨_, w'', hgives, he', hpersists.directory?, rfl, rfl, fun p => ?_⟩
    rw [hdisk]
    exact (Engine.extends_prepareDirectory path id options w'.disk).2.1 p

/-- Whatever happens in an orderly way on whatever disk: of two worlds of a run, the later one has one live
writer at most for each directory. -/
theorem exclusive_of_orderly (disk : Disk) (before after : List Event)
    (hbefore : ∀ event ∈ before, event.isOrderly = true)
    (hafter : ∀ event ∈ after, event.isOrderly = true) :
    Exclusive (future { disk } before) (future (future { disk } before) after) := by
  have hnone : Unscratched { disk } := fun _ _ hd => nomatch hd
  obtain ⟨hfirst, hw⟩ := shifts_future (accounted_of_disk disk) hnone hbefore
  obtain ⟨hsecond, -⟩ := shifts_future (accounted_future disk before) hw hafter
  exact ((latched_of_disk disk).shifts hfirst).exclusive hsecond

/-- Two managers have the same base, so that their stores of one id are one directory. The first of them
lends such a store, an entry is put, and the store is closed and returned. -/
def commonBase : List Event :=
  [.call (.addManager "m" "app" "user" (some "/b") false false),
    .call (.addManager "n" "app" "user" (some "/b") true false), .lend "h" "m" "s" {},
    .put "h" [{ key := [1], value := [2] }], .close "h", .reclaim "m" "h"]

/-- The second manager of `commonBase`. -/
def secondManager : Manager where
  app := "app"
  user := "user"
  base := some "/b"
  networked := true

/-- As long as the handle is there, the second manager is refused. When the handle has gone, the second
manager opens the directory and finds the entry. -/
theorem exclusive_of_orderly_common_base :
    (∃ w, Fails (future {} commonBase) (.lend 1 "s" {}) (.busy "s") w) ∧
    ∃ r e w, Gives (future (future {} commonBase) [.dropHandle "h"]) (.lend 1 "s" {}) r w ∧
      w.engines.get? r = some e ∧ e.table.get? [1] = some [2] := by
  have hcomes {w : World} (hn : w.managers.get? 1 = some secondManager) :
      ComesTo w (.lend 1 "s" {}) "/b/app/user/s" "s" {} true :=
    .lend hn (by decide) (by decide) rfl rfl rfl
  constructor
  case left =>
    have h : Exclusive (future {} commonBase) (future {} commonBase) :=
      exclusive_of_orderly {} commonBase [] (by decide) (by decide)
    obtain ⟨w, hfails, -⟩ := h.busy (.lend 1 "s" {}) _ "s" {} _ ["b", "app", "user", "s"]
      (hcomes (by decide +kernel)) (by decide +kernel) (by decide +kernel)
    exact ⟨w, hfails⟩
  case right =>
    have hthere : ((future (future {} commonBase) [.dropHandle "h"]).engines.get? 2).map
        (fun e => (e.table.get? [1], e.directory?)) = some (some [2], some ["b", "app", "user", "s"]) := by
      decide +kernel
    obtain ⟨e, he, hpair⟩ := Option.map_eq_some_iff.mp hthere
    obtain ⟨htable, hplace⟩ := Prod.mk.inj hpair
    -- The engine of the first manager is the only one.
    have hfresh : Fresh (future (future {} commonBase) [.dropHandle "h"]) :=
      (accounted_happen (accounted_future {} commonBase) (.dropHandle "h")).booked.fresh
    have hnext : (future (future {} commonBase) [.dropHandle "h"]).next = 3 := by decide +kernel
    have hlast : IsLast (future (future {} commonBase) [.dropHandle "h"]) 2 ["b", "app", "user", "s"] := by
      refine ⟨⟨e, he, hplace⟩, fun r hr => Nat.le_of_not_lt fun hlt => ?_⟩
      exact hfresh.not_sits (Nat.le_trans (Nat.le_of_eq hnext) hlt) hr
    obtain ⟨e', w, hgives, he', -, -, htable', -⟩ :=
      (exclusive_of_orderly {} commonBase [.dropHandle "h"] (by decide) (by decide)).reopened
        (.lend 1 "s" {}) _ "s" {} _ ["b", "app", "user", "s"] 2 e (hcomes (by decide +kernel))
        (by decide +kernel) (by decide +kernel) hlast he
    exact ⟨_, e', w, hgives, he', by rw [htable', htable]⟩

end Runs

end ObjectStore.World
