import ObjectStore.Proofs.World.Aside
import ObjectStore.Proofs.World.Settlement

/-!
# What happens to names

Most of what happens gives and takes no names. What does gives them to managers that are there: whatever
has happened, the managers that have names or depots were all made before.

Main statements: `sameNames_happen` and `known_future`.
-/

namespace ObjectStore.World

open ObjectStore.Action

variable {w w' : World}

/-! ## Steps that leave all names alone -/

theorem keptByCalls_sameNames (w : World) : KeptByCalls (SameNames w) where
  setsFaults h hfaults := h.trans hfaults.sameNames
  written h _ _ := h.trans ⟨rfl, rfl, rfl⟩

/-- A push finds and leaves the same names. -/
theorem sameNames_sync (h : Accounted w) (handle : Handle) (devices : List String) (mode : SyncMode) :
    SameNames w ((sync handle devices mode).exec w).2 := by
  have hfaults := setsFaults_counted handle .sync w
  rcases exec_sync_cases handle devices mode w with
    ⟨err, -, hexec⟩ | ⟨-, e, outcome, w', -, hpush, hexec⟩
  · rw [hexec]
    exact hfaults.sameNames
  · have hvisits := visits_pushAll (h.setsFaults hfaults) e devices ∅
    rw [hpush] at hvisits
    rw [hexec]
    exact hfaults.sameNames.trans hvisits.leaves.ways.names

theorem sameNames_discardDepot (old : Option Depot) (w : World) : SameNames w (discardDepot old w) := by
  unfold discardDepot
  split
  · rename_i d
    have hstop := (still_stop d w).2
    simp only
    split
    · exact hstop.trans ⟨rfl, rfl, rfl⟩
    · exact hstop
  · exact .refl w

/-- A named loan is denied, or what was lent gets the name. -/
theorem lendNamed_cases (handle : String) (ref : ManagerRef) (id : String) (options : Options)
    (w : World) :
    Refused w ((lendNamed handle ref id options).exec w).2 ∨
      ∃ lent w₁, LendsHandle w ref id options lent w₁ ∧
        ((lendNamed handle ref id options).exec w).2 = w₁.nameHandle handle lent := by
  have hlend := ensures_lend ref id options w
  unfold Ensures at hlend
  unfold lendNamed
  rw [exec_bind]
  rcases hexec : (lend ref id options).exec w with ⟨err | lent, w₁⟩
  · rw [hexec] at hlend
    exact .inl hlend
  · rw [hexec] at hlend
    exact .inr ⟨lent, w₁, hlend, rfl⟩

/-! ## Events that leave all names alone -/

/-- Whether an event gives and takes no names. -/
def Event.isNameless : Event → Bool
  | .call (.register _ _) | .call (.unregister _) | .call (.setFaults _ _) | .call (.edit _ _)
  | .call (.get _ _) | .call (.getSummary _ _) | .call (.getAll _ _) | .call (.sync _ _)
  | .setBase _ _ | .reclaim _ _ | .put _ _ | .delete _ _ | .scan _ _ | .close _ | .sync _ _ _
  | .writeFile _ _ _ | .makeDirectories _ | .flip _ _ _ | .dropEnd _ _ => true
  | _ => false

theorem sameNames_step (h : Accounted w) {call : Call} (hnameless : (Event.call call).isNameless = true) :
    SameNames w (step w call) := by
  have hrefl : SameNames w w := .refl w
  have hcalls := keptByCalls_sameNames w
  cases call with
  | register device manager =>
      simp only [step]
      split
      · exact ⟨rfl, rfl, rfl⟩
      · exact hrefl
  | unregister device => exact ⟨rfl, rfl, rfl⟩
  | setFaults manager faults =>
      simp only [step]
      split
      · exact sameNames_modifyManager _ _ _
      · exact hrefl
  | edit name edit => exact hcalls.edit hrefl name edit
  | get name key => exact hcalls.get hrefl name key
  | getSummary name key => exact hcalls.getSummary hrefl name key
  | getAll name front => exact hcalls.getAll hrefl name front
  | sync name devices =>
      simp only [step, onDepot]
      split
      · rename_i d _
        unfold syncDepot
        split
        · rename_i handle _
          exact sameNames_sync h handle devices .pushOnly
        · exact hrefl
      · exact hrefl
  | _ => cases hnameless

theorem sameNames_happen (h : Accounted w) {event : Event} (hnameless : event.isNameless = true) :
    SameNames w (happen w event) := by
  have hrefl : SameNames w w := .refl w
  have hcalls := keptByCalls_sameNames w
  cases event with
  | call call => exact sameNames_step h hnameless
  | setBase manager base =>
      simp only [happen]
      split
      · exact sameNames_modifyManager _ _ _
      · exact hrefl
  | reclaim manager handle =>
      simp only [happen]
      split
      · exact of_onHandle hrefl fun handle _ => (still_reclaim _ handle w).2
      · exact hrefl
  | put handle entries => exact of_onHandle hrefl fun handle _ => hcalls.put hrefl handle entries
  | delete handle keys => exact of_onHandle hrefl fun handle _ => hcalls.delete hrefl handle keys
  | scan handle front => exact of_onHandle hrefl fun handle _ => hcalls.scan hrefl handle front
  | close handle => exact of_onHandle hrefl fun handle _ => sameNames_closeEngine w handle.engine
  | sync handle devices mode =>
      exact of_onHandle hrefl fun handle _ => sameNames_sync h handle devices mode
  | writeFile path content append => exact ⟨rfl, rfl, rfl⟩
  | makeDirectories path => exact ⟨rfl, rfl, rfl⟩
  | flip path position mask => exact ⟨rfl, rfl, rfl⟩
  | dropEnd path count => exact ⟨rfl, rfl, rfl⟩
  | _ => cases hnameless

/-! ## Names of managers -/

/-- The managers that have names or depots were made before. -/
structure Known (w : World) : Prop where
  names : ∀ {name ref}, w.managerNames.get? name = some ref → ref < w.next
  depots : ∀ {name d}, w.depots.get? name = some d → d.manager < w.next

namespace Known

theorem of_eq (h : Known w) (hnames : w'.managerNames = w.managerNames) (hdepots : w'.depots = w.depots)
    (hnext : w.next ≤ w'.next) : Known w' where
  names hname := Nat.lt_of_lt_of_le (h.names (hnames ▸ hname)) hnext
  depots hd := Nat.lt_of_lt_of_le (h.depots (hdepots ▸ hd)) hnext

theorem nameManager (h : Known w) (name : String) {ref : ManagerRef} (href : ref < w.next) :
    Known (w.nameManager name ref) where
  names hname := by
    rw [show (w.nameManager name ref).managerNames = w.managerNames.insert name ref from rfl,
      SortedMap.get?_insert] at hname
    split at hname
    · cases hname
      exact href
    · exact h.names hname
  depots hd := h.depots hd

theorem setDepot (h : Known w) (name : String) {d : Depot} (hd : d.manager < w.next) :
    Known (w.setDepot name d) where
  names hname := h.names hname
  depots hname := by
    rw [show (w.setDepot name d).depots = w.depots.insert name d from rfl, SortedMap.get?_insert] at hname
    split at hname
    · cases hname
      exact hd
    · exact h.depots hname

/-- Nobody has anything to do with a manager that comes after the next one. -/
theorem spares (hknown : Known w) (h : Accounted w) (event : Event) : w.Spares (w.next + 1) event := by
  have hdepot {name : String} {d : Depot} (hd : w.depots.get? name = some d) :
      w.next + 1 ≠ d.manager := Nat.ne_of_gt (Nat.lt_succ_of_lt (hknown.depots hd))
  have hname {name : String} : w.managerNames.get? name ≠ some (w.next + 1) :=
    fun hname => Nat.not_succ_lt_self (hknown.names hname)
  cases event with
  | call call =>
      cases call with
      | addDepot => exact fun d handle hd _ => hdepot hd
      | dropDepot => exact fun d handle hd _ => hdepot hd
      | stop => exact fun d handle hd _ => hdepot hd
      | start => exact fun d hd _ => hdepot hd
      | _ => trivial
  | addReadyMade => exact fun d handle hd _ => hdepot hd
  | lend => exact hname
  | reclaim => exact hname
  | lendStore => exact fun _ _ => hname
  | close =>
      rintro handle - ⟨id, loan, hloan, -⟩
      simp [loan?, (h.booked.fresh (w.next + 1) (Nat.le_succ _)).2] at hloan
  | _ => trivial

/-- References are given out in their order. -/
theorem next_le_happen (hknown : Known w) (h : Accounted w) (event : Event) :
    w.next ≤ (happen w event).next :=
  (aside_happen h (Nat.succ_ne_self w.next) (hknown.spares h event)).next

end Known

/-! ## Depots that come and go -/

section Depots

variable {name : String} {d : Depot}

/-- To take something back gives out no reference. -/
theorem next_reclaim (ref : ManagerRef) (handle : Handle) (w : World) :
    ((reclaim ref handle).exec w).2.next = w.next := by
  refine Ensures.exec_snd (P := fun w' : World => w'.next = w.next) ?_
  refine (ensures_reclaim ref handle w).weaken ?_ fun _ _ h => h.1.next_eq
  rintro - w' ⟨e, w₁, -, hunwraps, hreturns⟩
  exact hreturns.next_eq.trans hunwraps.next_eq

theorem next_stop (d : Depot) (w : World) : ((stop d).run w).2.next = w.next := by
  unfold stop
  cases d.phase with
  | ready handle => exact next_reclaim d.manager handle w
  | _ => rfl

theorem next_discardDepot (old : Option Depot) (w : World) : (discardDepot old w).next = w.next := by
  unfold discardDepot
  split
  · rename_i d
    simp only
    split
    · exact next_stop d w
    · exact next_stop d w
  · rfl

theorem known_nameDepot (h : Known w) (name : String) (hd : d.manager < w.next) :
    Known (w.nameDepot name d) := by
  have hnames := sameNames_discardDepot (w.depots.get? name) (w.setDepot name d)
  exact (h.setDepot name hd).of_eq hnames.managerNames hnames.depots
    (Nat.le_of_eq (next_discardDepot _ _).symm)

theorem known_dropDepot (h : Known w) (name : String) : Known (w.dropDepot name) := by
  have hdropped : Known { w with depots := w.depots.erase name } :=
    ⟨h.names, fun hd => h.depots (SortedMap.get?_of_get?_erase hd)⟩
  have hnames := sameNames_discardDepot (w.depots.get? name) { w with depots := w.depots.erase name }
  exact hdropped.of_eq hnames.managerNames hnames.depots (Nat.le_of_eq (next_discardDepot _ _).symm)

/-- A depot that was opened has the manager that it had. -/
theorem manager_of_start (d : Depot) (w : World) :
    (start d).Ensures w (fun p _ => p.manager = d.manager) fun _ _ => True := by
  unfold start
  split
  · exact ensures_pure rfl
  · refine Ensures.bind (P := fun _ _ => True) (ensures_modify trivial) fun _ _ _ => ?_
    exact Ensures.bind (P := fun _ _ => True)
      (ensures_mapError (ensures_iff.mpr ⟨fun _ _ _ => trivial, fun _ _ _ => trivial⟩))
      fun _ _ _ => ensures_pure rfl

theorem ensures_start_known (h : Known w) (hbooked : Booked w) (hd : d.manager < w.next) :
    (start d).Ensures w (fun p w' => Known w' ∧ p.manager < w'.next) fun _ w' => Known w' := by
  have haside := @aside_start (d.manager + 1) w d hbooked fun _ => Nat.succ_ne_self d.manager
  refine ((haside.and (sameNames_start d w)).and (manager_of_start d w)).weaken ?_ ?_
  · rintro p w' ⟨⟨⟨-, haside⟩, hnames⟩, hmanager⟩
    refine ⟨h.of_eq hnames.managerNames hnames.depots haside.next, ?_⟩
    rw [hmanager]
    exact Nat.lt_of_lt_of_le hd haside.next
  · rintro err w' ⟨⟨⟨-, haside⟩, hnames⟩, -⟩
    exact h.of_eq hnames.managerNames hnames.depots haside.next

theorem known_startNamed (h : Known w) (hbooked : Booked w) (hd : w.depots.get? name = some d) :
    Known ((startNamed name d).exec w).2 := by
  refine Ensures.exec_snd (P := Known) ?_
  refine Ensures.bind (ensures_start_known h hbooked (h.depots hd)) ?_
  rintro p w' ⟨hknown, hmanager⟩
  exact ensures_modify (hknown.setDepot name hmanager)

theorem known_stopNamed (h : Known w) (hd : w.depots.get? name = some d) :
    Known ((stopNamed name d).run w).2 := by
  have hrun : ((stopNamed name d).run w).2 =
      ((stop d).run w).2.setDepot name { d with phase := .closed } := by
    rw [← stop_fst d w]
    rfl
  have hnames := (still_stop d w).2
  have hstopped := h.of_eq hnames.managerNames hnames.depots (Nat.le_of_eq (next_stop d w).symm)
  rw [hrun]
  refine hstopped.setDepot name ?_
  rw [next_stop]
  exact h.depots (d := d) hd

/-- A depot that is opened before it gets its name. -/
theorem known_nameStarted (h : Known w) (hbooked : Booked w) (hd : d.manager < w.next)
    (managerName depotName : String) :
    Known ((((start d).exec w).2.nameManager managerName d.manager).nameDepot depotName
      (((start d).exec w).1.toOption.getD d)) := by
  have hstart := (ensures_start_known h hbooked hd).and (@aside_start (d.manager + 1) w d hbooked
    fun _ => Nat.succ_ne_self d.manager)
  unfold Ensures at hstart
  rcases hexec : (start d).exec w with ⟨err | p, w'⟩
  · rw [hexec] at hstart
    obtain ⟨hknown, -, haside⟩ := hstart
    have hd' := Nat.lt_of_lt_of_le hd haside.next
    exact known_nameDepot (hknown.nameManager managerName hd') depotName hd'
  · rw [hexec] at hstart
    obtain ⟨⟨hknown, hp⟩, -, haside⟩ := hstart
    have hd' := Nat.lt_of_lt_of_le hd haside.next
    exact known_nameDepot (hknown.nameManager managerName hd') depotName hp

theorem known_addReadyMade (h : Known w) (hbooked : Booked w) (managerName depotName : String)
    (kind : ReadyMade) (scratch : String) :
    Known (w.addReadyMade managerName depotName kind scratch) := by
  have hadded {m : Manager} (hm : m.loans = ∅) : Known (w.addManager m).2 ∧ Booked (w.addManager m).2 :=
    ⟨h.of_eq rfl rfl (Nat.le_succ w.next),
      hbooked.steady ((steady_addManager hbooked.fresh hm "").trans (.of_eq rfl rfl rfl))⟩
  unfold addReadyMade
  simp only
  exact known_nameStarted (hadded rfl).1 (hadded rfl).2 (Nat.lt_succ_self w.next) managerName depotName

end Depots

/-! ## Every event -/

section Events

/-- What is lent under a name is no matter of managers and depots. -/
theorem known_lendNamed (h : Known w) (hbooked : Booked w) (handle : String) (ref : ManagerRef)
    (id : String) (options : Options) : Known ((lendNamed handle ref id options).exec w).2 := by
  have haside := aside_lendNamed hbooked (Nat.succ_ne_self ref) handle id options
  rcases lendNamed_cases handle ref id options w with hrefused | ⟨lent, w₁, hlends, hexec⟩
  · have hnames := hrefused.steady.2
    exact h.of_eq hnames.managerNames hnames.depots haside.next
  · have hnames := hlends.lends.ways.names
    rw [hexec] at haside ⊢
    exact h.of_eq hnames.managerNames hnames.depots haside.next

theorem known_openNamed (h : Known w) (handle path id : String) (options : Options)
    (networked : Bool) : Known ((openNamed handle path id options networked).exec w).2 := by
  rw [exec_openNamed]
  rcases Engine.openDirectory path id options networked w.isDirectoryHeld w.disk with ⟨err | e, disk⟩
  · exact h.of_eq rfl rfl (Nat.le_refl _)
  · exact h.of_eq rfl rfl (Nat.le_succ _)

theorem known_step (h : Accounted w) (hknown : Known w) {call : Call}
    (hnames : (Event.call call).isNameless = false) : Known (step w call) := by
  cases call with
  | addManager name app user base networked guarded =>
      let m : Manager := { app, user, base, networked, guard := if guarded then some {} else none }
      have hadded : Known (w.addManager m).2 := hknown.of_eq rfl rfl (Nat.le_succ _)
      exact hadded.nameManager name (Nat.lt_succ_self w.next)
  | dropManager name =>
      exact ⟨fun hname => hknown.names (SortedMap.get?_of_get?_erase hname), hknown.depots⟩
  | addDepot name manager id config =>
      simp only [step]
      split
      · rename_i ref href
        exact known_nameDepot hknown name (hknown.names href)
      · exact hknown
  | dropDepot name => exact known_dropDepot hknown name
  | start name =>
      simp only [step, onDepot]
      split
      · rename_i d hd
        exact known_startNamed hknown h.booked hd
      · exact hknown
  | stop name =>
      simp only [step, onDepot]
      split
      · rename_i d hd
        exact known_stopNamed hknown hd
      · exact hknown
  | _ => cases hnames

/-- Whatever happens, names and depots stand for managers that were made before. -/
theorem known_happen (h : Accounted w) (hknown : Known w) (event : Event) : Known (happen w event) := by
  cases hnames : event.isNameless with
  | true =>
      have hsame := sameNames_happen h hnames
      exact hknown.of_eq hsame.managerNames hsame.depots (hknown.next_le_happen h event)
  | false =>
      cases event with
      | call call => exact known_step h hknown hnames
      | lend handle manager id options =>
          simp only [happen]
          split
          · exact known_lendNamed hknown h.booked handle _ id options
          · exact hknown
      | lendStore handle depot =>
          simp only [happen]
          split
          · split
            · exact known_lendNamed hknown h.booked handle _ _ _
            · exact hknown
          · exact hknown
      | openMemory handle id options networked => exact hknown.of_eq rfl rfl (Nat.le_succ _)
      | openDirectory handle path id options networked =>
          exact known_openNamed hknown handle path id options networked
      | dropHandle handle => exact hknown.of_eq rfl rfl (Nat.le_refl _)
      | setCodecFaults depot faults =>
          simp only [happen]
          split
          · rename_i d hd
            exact hknown.setDepot depot (hknown.depots (d := d) hd)
          · exact hknown
      | addReadyMade manager depot kind scratch =>
          exact known_addReadyMade hknown h.booked manager depot kind scratch
      | _ => cases hnames

/-- Whatever has happened, names and depots stand for managers that were made before. -/
theorem known_future (disk : Disk) (events : List Event) : Known (future { disk } events) := by
  unfold future
  induction events using List.reverseRecOn with
  | nil => exact ⟨(nomatch ·), (nomatch ·)⟩
  | append_singleton events event ih =>
      rw [List.foldl_append]
      exact known_happen (accounted_future disk events) ih event

end Events

end ObjectStore.World
