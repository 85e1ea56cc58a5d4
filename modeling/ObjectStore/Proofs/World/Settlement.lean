import Mathlib.Data.List.Dedup
import ObjectStore.Proofs.World.Events
import ObjectStore.Proofs.World.Verdicts

/-!
# What a push settles

A push visits its devices in turn. A device may be named more than once, several names may lead to one
manager, and the manager that has lent the pushed store may be one of them. As the first delivery to a
manager decides about all others to it, each manager is settled once: its store holds the pushed table
over what it kept before, or it keeps what it kept.

What is said of the store of one manager needs that no other manager that is held has the store of that id
at the same place (`Alone`): where two managers share a place, what one of them holds there bars the other.

Main statement: `settles_sync`.
-/

namespace ObjectStore.World

open ObjectStore.Action

/-! ## The course of a push -/

/-- The manager that is behind a device, if a push from a store can reach it. -/
def reached (networked : Bool) (w : World) (device : String) : Option ManagerRef :=
  if networked then w.resolve device else none

theorem reached_eq_some_iff {networked : Bool} {w : World} {device : String} {ref : ManagerRef} :
    reached networked w device = some ref ↔
      networked = true ∧ w.devices.get? device = some ref ∧ w.isManagerHeld ref = true := by
  unfold reached resolve
  cases networked <;> simp [Option.filter_eq_some_iff]

theorem reached_eq_none_iff {networked : Bool} {w : World} {device : String} :
    reached networked w device = none ↔
      (networked = true → ∀ ref, w.devices.get? device = some ref → w.isManagerHeld ref = false) := by
  rw [Option.eq_none_iff_forall_ne_some]
  simp only [ne_eq, reached_eq_some_iff, not_and, Bool.not_eq_true]
  exact ⟨fun h hnetworked ref => h ref hnetworked, fun h ref hnetworked => h hnetworked ref⟩

/-- How the push of an engine's table goes: one device after the other is passed over or delivered to. -/
inductive Visits (e : Engine) : List String → SyncOutcome → World → SyncOutcome → World → Prop where
  | nil {outcome : SyncOutcome} {w : World} : Visits e [] outcome w outcome w
  | offline {device : String} {devices : List String} {outcome outcome' : SyncOutcome} {w w' : World} :
      reached e.networked w device = none →
      Visits e devices (outcome.insert device .offline) w outcome' w' →
      Visits e (device :: devices) outcome w outcome' w'
  | delivered {device : String} {devices : List String} {outcome outcome' : SyncOutcome}
      {w w₁ w' : World} {ref : ManagerRef} {written : Except StorageError Unit} :
      Accounted w → reached e.networked w device = some ref →
      Delivers w ref e.id e.options (e.table.scan []) written w₁ →
      Visits e devices (outcome.insert device (statusOfDelivery written)) w₁ outcome' w' →
      Visits e (device :: devices) outcome w outcome' w'

theorem Leaves.reached_eq {s : Table} {w w' : World} (h : Leaves s w w') (networked : Bool)
    (device : String) : reached networked w' device = reached networked w device := by
  unfold reached
  rw [h.ways.resolve]

theorem visits_pushAll {w : World} (h : Accounted w) (e : Engine) (devices : List String)
    (outcome : SyncOutcome) :
    Visits e devices outcome w
      ((pushAll e.networked e.id e.options (e.table.scan []) devices outcome).run w).1
      ((pushAll e.networked e.id e.options (e.table.scan []) devices outcome).run w).2 := by
  induction devices generalizing w outcome with
  | nil => exact .nil
  | cons device devices ih =>
      rw [pushAll, StateT.run_bind, run_pushTo]
      cases hreached : reached e.networked w device with
      | none =>
          unfold reached at hreached
          rw [hreached]
          exact .offline hreached (ih h _)
      | some ref =>
          unfold reached at hreached
          rw [hreached]
          exact .delivered h hreached (delivers_deliver h ref e.id e.options e.table)
            (ih (accounted_deliver h e.id e.options _ ref) _)

namespace Visits

variable {e : Engine} {devices : List String} {outcome outcome' : SyncOutcome} {w w' : World}
  {ref : ManagerRef}

theorem leaves (h : Visits e devices outcome w outcome' w') : Leaves e.table w w' := by
  induction h with
  | nil => exact .refl e.table _
  | offline _ _ ih => exact ih
  | delivered hw _ hdelivers _ ih => exact (hdelivers.round hw).toLeaves.trans ih

/-! ## Statuses -/

theorem get?_of_notMem (h : Visits e devices outcome w outcome' w') {device : String}
    (hdevice : device ∉ devices) : outcome'.get? device = outcome.get? device := by
  induction h with
  | nil => rfl
  | offline _ _ ih =>
      rw [List.mem_cons, not_or] at hdevice
      rw [ih hdevice.2, SortedMap.get?_insert, if_neg hdevice.1]
  | delivered _ _ _ _ ih =>
      rw [List.mem_cons, not_or] at hdevice
      rw [ih hdevice.2, SortedMap.get?_insert, if_neg hdevice.1]

/-- The status of a device that does not come again stays. -/
theorem get?_first {device : String} {status : SyncStatus}
    (h : Visits e devices (outcome.insert device status) w outcome' w') (hdevice : device ∉ devices) :
    outcome'.get? device = some status := by
  rw [h.get?_of_notMem hdevice, SortedMap.get?_insert, if_pos rfl]

/-- Every device has a status, and that says whether it was reached. -/
theorem exists_status (h : Visits e devices outcome w outcome' w') {device : String}
    (hdevice : device ∈ devices) :
    ∃ status, outcome'.get? device = some status ∧
      (status = .offline ↔ reached e.networked w device = none) := by
  induction h with
  | nil => cases hdevice
  | @offline first devices _ _ _ _ hreached hrest ih =>
      by_cases hlater : device ∈ devices
      · exact ih hlater
      · obtain rfl := (List.mem_cons.mp hdevice).resolve_right hlater
        exact ⟨.offline, hrest.get?_first hlater, by simp [hreached]⟩
  | @delivered first devices _ _ w w₁ _ ref written hw hreached hdelivers hrest ih =>
      by_cases hlater : device ∈ devices
      · rw [← (hdelivers.round hw).toLeaves.reached_eq]
        exact ih hlater
      · obtain rfl := (List.mem_cons.mp hdevice).resolve_right hlater
        refine ⟨statusOfDelivery written, hrest.get?_first hlater, ?_⟩
        cases written <;> simp [statusOfDelivery, hreached]

/-- There is one status for each name. -/
theorem perm_keys (h : Visits e devices ∅ w outcome' w') : outcome'.keys.Perm devices.dedup := by
  rw [List.perm_ext_iff_of_nodup outcome'.nodup_keys devices.nodup_dedup]
  intro device
  rw [SortedMap.mem_keys_iff, List.mem_dedup]
  by_cases hdevice : device ∈ devices
  · obtain ⟨status, hstatus, -⟩ := h.exists_status hdevice
    simp [hstatus, hdevice]
  · simp [h.get?_of_notMem hdevice, hdevice]

end Visits

/-! ## One manager in a push -/

/-- What is delivered to a store is found there again: the store is on loan or on disk. -/
def Lasting (w : World) (ref : ManagerRef) (id : String) (options : Options) : Prop :=
  (w.loan? ref id).isSome ∨ options.memoryOnly = false

theorem kept_of_not_lasting {w : World} {ref : ManagerRef} {id : String} {options : Options}
    (h : ¬ Lasting w ref id options) : w.kept ref id options = ∅ := by
  simp only [Lasting, not_or, Option.not_isSome_iff_eq_none, Bool.not_eq_false] at h
  exact kept_of_memory h.1 h.2

/-- A delivery puts its table over what a store keeps, or it does not. -/
theorem Delivers.over_kept {s : Table} {w w' : World} {ref : ManagerRef} {id : String}
    {options : Options} {written : Except StorageError Unit}
    (hdelivers : Delivers w ref id options (s.scan []) written w') (h : Accounted w) :
    Over s (w.kept ref id options) (w'.kept ref id options) := by
  obtain ⟨hsame, hoverlaid⟩ := hdelivers.kept_eq h
  by_cases hok : written = .ok ()
  · by_cases hlasting : Lasting w ref id options
    · exact .inr (hoverlaid hok hlasting)
    · have hlasting' : ¬ Lasting w' ref id options := by
        rwa [Lasting, (hdelivers.round h).loans]
      exact .inl (by rw [kept_of_not_lasting hlasting, kept_of_not_lasting hlasting'])
  · exact .inl (hsame hok)

/-- One answer holds for all deliveries to a manager in a push. -/
structure Stands (e : Engine) (ref : ManagerRef) (taken : Bool) (devices : List String)
    (outcome' : SyncOutcome) (w w' : World) : Prop where
  verdict : Verdict (.put (e.table.scan [])) w' ref e.id e.options taken
  statuses : ∀ device ∈ devices, reached e.networked w device = some ref →
    (outcome'.get? device = some .done ↔ taken = true)
  kept : Over e.table (w.kept ref e.id e.options) (w'.kept ref e.id e.options)
  refused : taken = false → w'.kept ref e.id e.options = w.kept ref e.id e.options

/-- The first delivery to a manager has settled what becomes of its store. -/
structure Settled (e : Engine) (ref : ManagerRef) (taken : Bool) (devices : List String)
    (outcome' : SyncOutcome) (w w' : World) : Prop extends
    Stands e ref taken devices outcome' w w' where
  arrived : ∃ device ∈ devices, reached e.networked w device = some ref
  overlaid : taken = true → Lasting w ref e.id e.options →
    w'.kept ref e.id e.options = (w.kept ref e.id e.options).overlay e.table

/-- What a push comes to for a manager: it passes the manager by, or it settles what becomes of its
store. -/
inductive Treated (e : Engine) (ref : ManagerRef) (devices : List String) (outcome' : SyncOutcome)
    (w w' : World) : Prop where
  | passed : (∀ device ∈ devices, reached e.networked w device ≠ some ref) →
      w'.kept ref e.id e.options = w.kept ref e.id e.options → Treated e ref devices outcome' w w'
  | settled {taken : Bool} : Settled e ref taken devices outcome' w w' →
      Treated e ref devices outcome' w w'

section OneManager

variable {e : Engine} {device : String} {devices : List String} {outcome outcome' : SyncOutcome}
  {w w₁ w' : World} {ref : ManagerRef} {taken : Bool} {written : Except StorageError Unit}

/-- Something else may come first that leaves the store alone. -/
theorem Stands.of_leaves (hstands : Stands e ref taken devices outcome' w₁ w')
    (hleaves : Leaves e.table w w₁)
    (hkept : w₁.kept ref e.id e.options = w.kept ref e.id e.options) :
    Stands e ref taken devices outcome' w w' where
  verdict := hstands.verdict
  statuses device' hmem hreached :=
    hstands.statuses device' hmem ((hleaves.reached_eq _ device').trans hreached)
  kept := hkept ▸ hstands.kept
  refused hrefused := (hstands.refused hrefused).trans hkept

/-- A device that does not lead to the manager may come first. -/
theorem Stands.cons_of_ne (hstands : Stands e ref taken devices outcome' w w')
    (hne : reached e.networked w device ≠ some ref) :
    Stands e ref taken (device :: devices) outcome' w w' where
  verdict := hstands.verdict
  statuses device' hmem hreached := by
    rcases List.mem_cons.mp hmem with rfl | hlater
    · exact absurd hreached hne
    · exact hstands.statuses device' hlater hreached
  kept := hstands.kept
  refused := hstands.refused

/-- A delivery to the manager may come first that goes the same way. -/
theorem Stands.cons_of_delivers (hstands : Stands e ref taken devices outcome' w₁ w')
    (h : Accounted w) (hdelivers : Delivers w ref e.id e.options (e.table.scan []) written w₁)
    (htaken : written = .ok () ↔ taken = true)
    (hrest : Visits e devices (outcome.insert device (statusOfDelivery written)) w₁ outcome' w') :
    Stands e ref taken (device :: devices) outcome' w w' where
  verdict := hstands.verdict
  statuses device' hmem hreached := by
    by_cases hlater : device' ∈ devices
    · refine hstands.statuses device' hlater ?_
      rw [(hdelivers.round h).toLeaves.reached_eq, hreached]
    · obtain rfl := (List.mem_cons.mp hmem).resolve_right hlater
      rw [hrest.get?_first hlater, ← htaken]
      cases written <;> simp [statusOfDelivery]
  kept := (hdelivers.over_kept h).trans hstands.kept
  refused hrefused := by
    rw [hstands.refused hrefused]
    exact (hdelivers.kept_eq h).1 fun hok => by simp [htaken.mp hok] at hrefused

/-- A verdict about a manager stands over all that comes. -/
theorem Visits.stands (h : Visits e devices outcome w outcome' w')
    (halone : w.Alone ref e.id e.options)
    (hverdict : Verdict (.put (e.table.scan [])) w ref e.id e.options taken) :
    Stands e ref taken devices outcome' w w' := by
  induction h with
  | nil => exact ⟨hverdict, fun _ hmem => (by cases hmem), .refl _ _, fun _ => rfl⟩
  | offline hreached _ ih => exact (ih halone hverdict).cons_of_ne (by simp [hreached])
  | @delivered _ _ _ _ w w₁ _ ref' _ hw hreached hdelivers hrest ih =>
      have hround := hdelivers.round hw
      have hheld := (reached_eq_some_iff.mp hreached).2.2
      have halone' := (hround.alone_iff hw.booked ref _ _).mpr halone
      by_cases hsame : ref = ref'
      · subst hsame
        have htaken := hverdict.delivers hw hdelivers
        exact (ih halone' (hdelivers.verdict hw htaken)).cons_of_delivers hw hdelivers htaken hrest
      · have hverdict' := hverdict.of_round hw hround fun place hplace =>
          hround.content?_eq_of_alone hheld halone hsame hplace
        refine ((ih halone' hverdict').of_leaves hround.toLeaves
          (hround.kept_eq_of_alone hw hheld halone hsame)).cons_of_ne ?_
        rw [hreached]
        exact fun heq => hsame (Option.some.inj heq).symm

namespace Treated

theorem of_leaves (h : Treated e ref devices outcome' w₁ w') (hleaves : Leaves e.table w w₁)
    (hkept : w₁.kept ref e.id e.options = w.kept ref e.id e.options) :
    Treated e ref devices outcome' w w' := by
  cases h with
  | passed hpassed hsame =>
      simp only [hleaves.reached_eq] at hpassed
      exact .passed hpassed (hsame.trans hkept)
  | settled hsettled =>
      have harrived := hsettled.arrived
      simp only [hleaves.reached_eq] at harrived
      refine .settled ⟨hsettled.toStands.of_leaves hleaves hkept, harrived, fun htaken hlasting => ?_⟩
      rw [← hkept]
      exact hsettled.overlaid htaken (by rwa [Lasting, hleaves.loans])

theorem cons_of_ne (h : Treated e ref devices outcome' w w')
    (hne : reached e.networked w device ≠ some ref) :
    Treated e ref (device :: devices) outcome' w w' := by
  cases h with
  | passed hpassed hsame => exact .passed (List.forall_mem_cons.mpr ⟨hne, hpassed⟩) hsame
  | settled hsettled =>
      obtain ⟨device', hmem, hreached⟩ := hsettled.arrived
      exact .settled ⟨hsettled.toStands.cons_of_ne hne,
        ⟨device', List.mem_cons_of_mem _ hmem, hreached⟩, hsettled.overlaid⟩

theorem kept_eq_of_passed (h : Treated e ref devices outcome' w w')
    (hpassed : ∀ device ∈ devices, reached e.networked w device ≠ some ref) :
    w'.kept ref e.id e.options = w.kept ref e.id e.options := by
  cases h with
  | passed _ hsame => exact hsame
  | settled hsettled =>
      obtain ⟨device, hmem, hreached⟩ := hsettled.arrived
      exact absurd hreached (hpassed device hmem)

theorem exists_settled (h : Treated e ref devices outcome' w w') (hmem : device ∈ devices)
    (hreached : reached e.networked w device = some ref) :
    ∃ taken, Settled e ref taken devices outcome' w w' := by
  cases h with
  | passed hpassed => exact absurd hreached (hpassed device hmem)
  | settled hsettled => exact ⟨_, hsettled⟩

end Treated

/-- A push treats every manager whose store is kept apart in one of the two ways. -/
theorem Visits.treated (h : Visits e devices outcome w outcome' w')
    (halone : w.Alone ref e.id e.options) : Treated e ref devices outcome' w w' := by
  induction h with
  | nil => exact .passed (fun _ hmem => by cases hmem) rfl
  | offline hreached _ ih => exact (ih halone).cons_of_ne (by simp [hreached])
  | @delivered device devices _ _ w w₁ _ ref' written hw hreached hdelivers hrest ih =>
      have hround := hdelivers.round hw
      have hheld := (reached_eq_some_iff.mp hreached).2.2
      have halone' := (hround.alone_iff hw.booked ref _ _).mpr halone
      by_cases hsame : ref = ref'
      -- From the first delivery on there is a verdict.
      · subst hsame
        obtain ⟨taken, htaken⟩ : ∃ taken, written = .ok () ↔ taken = true :=
          ⟨decide (written = .ok ()), by simp⟩
        have hstands := hrest.stands halone' (hdelivers.verdict hw htaken)
        refine .settled ⟨hstands.cons_of_delivers hw hdelivers htaken hrest,
          ⟨device, List.mem_cons_self, hreached⟩, fun hok hlasting => ?_⟩
        have hover := hstands.kept
        rw [(hdelivers.kept_eq hw).2 (htaken.mpr hok) hlasting] at hover
        exact hover.of_overlay
      · refine ((ih halone').of_leaves hround.toLeaves
          (hround.kept_eq_of_alone hw hheld halone hsame)).cons_of_ne ?_
        rw [hreached]
        exact fun heq => hsame (Option.some.inj heq).symm

end OneManager

/-! ## Requests -/

section Requests

variable {handle : Handle} {devices : List String} {mode : SyncMode} {w w' : World} {e : Engine}

/-- A request starts with a count, and that does not matter for the push. -/
theorem Visits.treated_of_counted {outcome' : SyncOutcome} {ref : ManagerRef} (h : Accounted w)
    (hvisits : Visits e devices ∅ (counted handle .sync w) outcome' w')
    (halone : w.Alone ref e.id e.options) : Treated e ref devices outcome' w w' := by
  have hround := round_counted e.table ref e.id e.options handle .sync w
  have hbooks := (setsFaults_counted handle .sync w).sameBooks
  exact (hvisits.treated ((hround.alone_iff h.booked ref _ _).mpr halone)).of_leaves hround.toLeaves
    (hbooks.kept_eq ref e.id e.options)

/-- The same push once more leaves a store as the first one has left it. -/
theorem Treated.kept_again {outcome₁ outcome₂ : SyncOutcome} {w'' : World} {ref : ManagerRef}
    (htreated : Treated e ref devices outcome₁ w w') (h' : Accounted w')
    (hleaves : Leaves e.table w w') (halone' : w'.Alone ref e.id e.options)
    (hvisits : Visits e devices ∅ (counted handle .sync w') outcome₂ w'') :
    w''.kept ref e.id e.options = w'.kept ref e.id e.options := by
  cases htreated with
  | passed hpassed =>
      refine (hvisits.treated_of_counted h' halone').kept_eq_of_passed fun device hmem => ?_
      rw [hleaves.reached_eq]
      exact hpassed device hmem
  | @settled taken hsettled =>
      have hround := round_counted e.table ref e.id e.options handle .sync w'
      have hbooks := (setsFaults_counted handle .sync w').sameBooks
      -- The verdict of the first push stands over the second one.
      have hverdict := hsettled.verdict.of_round h' hround fun place _ => by rw [hbooks.disk]
      have hstands := (hvisits.stands ((hround.alone_iff h'.booked ref _ _).mpr halone') hverdict).of_leaves
        hround.toLeaves (hbooks.kept_eq ref e.id e.options)
      cases taken with
      | false => exact hstands.refused rfl
      | true =>
          rcases hstands.kept with hsame | hoverlaid
          · exact hsame
          · by_cases hlasting : Lasting w ref e.id e.options
            · rw [hoverlaid, hsettled.overlaid rfl hlasting, Table.overlay_overlay]
            · have hlasting' : ¬ Lasting w' ref e.id e.options := by rwa [Lasting, hleaves.loans]
              have hlasting'' : ¬ Lasting w'' ref e.id e.options := by
                rwa [Lasting, hvisits.leaves.loans, hround.loans]
              rw [kept_of_not_lasting hlasting', kept_of_not_lasting hlasting'']

end Requests

/-- What a request that is accepted comes to. What is said of a manager's store is said where no other
manager that is held has the store at the same place. -/
structure Settles (handle : Handle) (devices : List String) (mode : SyncMode) (e : Engine) (w : World)
    (outcome : SyncOutcome) (w' : World) : Prop where
  /-- There is one status for each name. -/
  names : outcome.keys.Perm devices.dedup
  /-- A device is offline if its name is not registered or its manager is no longer held. All devices are
  offline for a store outside of all networks. -/
  offline : ∀ device ∈ devices, outcome.get? device = some .offline ↔
    (e.networked = true → ∀ ref, w.devices.get? device = some ref → w.isManagerHeld ref = false)
  /-- Where the push is done, every entry is there with its value, and all others are as they were. -/
  done : ∀ {device ref}, outcome.get? device = some .done → w.devices.get? device = some ref →
    w.Alone ref e.id e.options → Lasting w ref e.id e.options → ∀ k,
      (w'.kept ref e.id e.options).get? k =
        ((content handle w).get? k).or ((w.kept ref e.id e.options).get? k)
  /-- Where the push has failed or the device is offline, nothing has changed. -/
  undone : ∀ {device status ref}, outcome.get? device = some status → status ≠ .done →
    w.devices.get? device = some ref → w.Alone ref e.id e.options →
      w'.kept ref e.id e.options = w.kept ref e.id e.options
  /-- What is not pushed to keeps what it kept. -/
  others : ∀ {ref}, (∀ device ∈ devices, w.devices.get? device ≠ some ref) →
    w.Alone ref e.id e.options → w'.kept ref e.id e.options = w.kept ref e.id e.options
  /-- The same request once more is accepted and changes nothing more. -/
  again : ∃ outcome' w'', (sync handle devices mode).exec w' = (.ok outcome', w'') ∧
    ∀ {ref}, w.Alone ref e.id e.options →
      w''.kept ref e.id e.options = w'.kept ref e.id e.options
  /-- The store itself holds what it held. -/
  source : content handle w' = content handle w
  /-- Every manager has the same stores on loan, as often as before. -/
  loans : ∀ ref id, w'.loan? ref id = w.loan? ref id

section Settlement

variable {handle : Handle} {devices : List String} {mode : SyncMode} {w w' : World} {e : Engine}
  {outcome : SyncOutcome}

/-- What an engine holds stays the same when its own table is put over it. -/
theorem Leaves.source (h : Leaves e.table w w') (he : w.engines.get? handle.engine = some e) :
    ∃ e', w'.engines.get? handle.engine = some e' ∧ SameEngine e e' ∧ e'.table = e.table := by
  obtain ⟨e', he', hsame, hover⟩ := h.engines he
  rcases hover with htable | htable
  · exact ⟨e', he', hsame, htable⟩
  · exact ⟨e', he', hsame, htable.trans (Table.overlay_self e.table)⟩

theorem Visits.leaves_of_counted (hvisits : Visits e devices ∅ (counted handle .sync w) outcome w') :
    Leaves e.table w w' :=
  (leaves_counted e.table handle .sync w).trans hvisits.leaves

/-- A request can be made again after its push. -/
theorem Visits.exec_sync_again (h' : Accounted w')
    (hvisits : Visits e devices ∅ (counted handle .sync w) outcome w')
    (he : w.engines.get? handle.engine = some e)
    (haccepted : syncRefusal? handle devices mode w = none) :
    ∃ outcome' w'', (sync handle devices mode).exec w' = (.ok outcome', w'') ∧
      Visits e devices ∅ (counted handle .sync w') outcome' w'' := by
  have hleaves := hvisits.leaves_of_counted
  obtain ⟨e', he', hsame, htable⟩ := hleaves.source he
  have haccepted' : syncRefusal? handle devices mode w' = none := by
    rw [syncRefusal?_eq_none_iff] at haccepted ⊢
    obtain ⟨hblocks, ⟨e₁, he₁, hopen⟩, hcheck⟩ := haccepted
    rw [he] at he₁
    cases he₁
    exact ⟨(blocks_congr hleaves.switches handle .sync).trans hblocks,
      ⟨e', he', hsame.isClosed.trans hopen⟩, hcheck⟩
  rcases exec_sync_cases handle devices mode w' with
    ⟨err, hrefused, -⟩ | ⟨-, e₁, outcome', w'', he₁, hpush, hexec⟩
  · rw [haccepted'] at hrefused
    cases hrefused
  · rw [he'] at he₁
    cases he₁
    -- The engine is still the one that was pushed, and it holds what it held.
    rw [hsame.networked, hsame.id, hsame.options, htable] at hpush
    have hcounted := h'.setsFaults (setsFaults_counted handle .sync w')
    have hvisits' := visits_pushAll hcounted e devices ∅
    rw [hpush] at hvisits'
    exact ⟨outcome', w'', hexec, hvisits'⟩

/-- A push that has visited its devices settles everything. -/
theorem Visits.settles (h : Accounted w) (h' : Accounted w')
    (hvisits : Visits e devices ∅ (counted handle .sync w) outcome w')
    (he : w.engines.get? handle.engine = some e)
    (haccepted : syncRefusal? handle devices mode w = none) :
    Settles handle devices mode e w outcome w' := by
  have hleaves := hvisits.leaves_of_counted
  have hstatus {device : String} (hmem : device ∈ devices) :
      ∃ status, outcome.get? device = some status ∧
        (status = .offline ↔ reached e.networked w device = none) := by
    rw [← (leaves_counted e.table handle .sync w).reached_eq]
    exact hvisits.exists_status hmem
  have hmem {device : String} {status : SyncStatus} (hget : outcome.get? device = some status) :
      device ∈ devices := by
    by_contra hno
    rw [hvisits.get?_of_notMem hno] at hget
    cases hget
  -- A device that is not offline leads to the manager that is registered under its name.
  have hreached {device : String} {status : SyncStatus} {ref : ManagerRef}
      (hget : outcome.get? device = some status) (honline : status ≠ .offline)
      (href : w.devices.get? device = some ref) : reached e.networked w device = some ref := by
    obtain ⟨status', hget', hoffline⟩ := hstatus (hmem hget)
    rw [hget] at hget'
    cases hget'
    obtain ⟨ref', href'⟩ := Option.ne_none_iff_exists'.mp fun hnone => honline (hoffline.mpr hnone)
    have hregistered := (reached_eq_some_iff.mp href').2.1
    rw [href] at hregistered
    cases hregistered
    exact href'
  constructor
  case names => exact hvisits.perm_keys
  case offline =>
    intro device hdevice
    obtain ⟨status, hget, hoffline⟩ := hstatus hdevice
    rw [← reached_eq_none_iff, ← hoffline, hget, Option.some.injEq]
  case done =>
    intro device ref hget href halone hlasting k
    obtain ⟨taken, hsettled⟩ := (hvisits.treated_of_counted h halone).exists_settled (hmem hget)
      (hreached hget (by simp) href)
    have htaken := (hsettled.statuses device (hmem hget) (hreached hget (by simp) href)).mp hget
    rw [hsettled.overlaid htaken hlasting, Table.get?_overlay, content_of_get? he]
  case undone =>
    intro device status ref hget hundone href halone
    have htreated := hvisits.treated_of_counted h halone
    by_cases hoffline : status = .offline
    · obtain ⟨status', hget', hnone⟩ := hstatus (hmem hget)
      rw [hget] at hget'
      cases hget'
      have hunheld := reached_eq_none_iff.mp (hnone.mp hoffline)
      refine htreated.kept_eq_of_passed fun device' _ hreached' => ?_
      obtain ⟨hnetworked, -, hheld⟩ := reached_eq_some_iff.mp hreached'
      rw [hunheld hnetworked ref href] at hheld
      cases hheld
    · obtain ⟨taken, hsettled⟩ := htreated.exists_settled (hmem hget) (hreached hget hoffline href)
      have hdone := hsettled.statuses device (hmem hget) (hreached hget hoffline href)
      rw [hget, Option.some.injEq] at hdone
      refine hsettled.refused ?_
      rw [Bool.eq_false_iff]
      exact fun htaken => hundone (hdone.mpr htaken)
  case others =>
    intro ref hothers halone
    refine (hvisits.treated_of_counted h halone).kept_eq_of_passed fun device hdevice hreached' => ?_
    exact hothers device hdevice (reached_eq_some_iff.mp hreached').2.1
  case again =>
    obtain ⟨outcome', w'', hexec, hvisits'⟩ := hvisits.exec_sync_again h' he haccepted
    refine ⟨outcome', w'', hexec, fun {ref} halone => ?_⟩
    exact (hvisits.treated_of_counted h halone).kept_again h' hleaves
      ((hleaves.alone_iff h.booked ref _ _).mpr halone) hvisits'
  case source =>
    obtain ⟨e', he', -, htable⟩ := hleaves.source he
    rw [content_of_get? he, content_of_get? he', htable]
  case loans => exact hleaves.loans

end Settlement

/-- Two names of one manager, the manager of the store itself, and a name that nobody has. -/
example :
    let options : Options := { memoryOnly := true }
    let w := future {}
      [.call (.addManager "here" "app" "user" none true false),
        .call (.addManager "there" "app" "user" none true true),
        .call (.register "a" "here"), .call (.register "b" "there"), .call (.register "c" "there"),
        .lend "source" "here" "drag" options, .lend "peer" "there" "drag" options,
        .put "source" [⟨[1], [1]⟩], .put "peer" [⟨[1], [2]⟩, ⟨[2], [2]⟩]]
    let pushed := (sync (.direct 2) ["b", "x", "a", "c", "b"] .pushOnly).exec w
    pushed.1.toOption.map SortedMap.entries =
        some [("a", .done), ("b", .done), ("c", .done), ("x", .offline)] ∧
      (pushed.2.kept 1 "drag" options).entries = [([1], [1]), ([2], [2])] := by
  decide +kernel

end ObjectStore.World
