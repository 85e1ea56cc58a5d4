import ObjectStore.Proofs.World.Pushes
import ObjectStore.Proofs.World.Tracked

/-!
# Every run keeps the books

Whatever callers do, the books of the managers cover what the depots have borrowed: depots borrow and
give back, pushes borrow for the time of a delivery, and everything else leaves the books alone. So the
engine of a depot that is ready is open, and it is the one that its manager has on loan under the id.

Main statements: `ledger_step` and `ledger_of_run`.
-/

namespace ObjectStore.World

open ObjectStore.Action

variable {w w' : World}

/-! ## Calls that leave the books alone -/

/-- Everything that was borrowed is still on loan. -/
theorem Ledger.of_steady (h : Ledger w w.borrowings) (hsteady : Steady w w')
    (hborrowings : w'.borrowings = w.borrowings) : Ledger w' w'.borrowings := by
  rw [hborrowings]
  exact h.steady hsteady

/-- Nothing is on loan from a manager that is new. -/
theorem steady_addManager (hfresh : Fresh w) {m : Manager} (hm : m.loans = ∅) (name : String) :
    Steady w ((w.addManager m).2.nameManager name w.next) := by
  have hget (ref : ManagerRef) :
      (w.managers.insert w.next m).get? ref = if ref = w.next then some m else w.managers.get? ref :=
    SortedMap.get?_insert w.managers w.next m ref
  constructor
  case fresh =>
    intro _ r hr
    have hr' : w.next + 1 ≤ r := hr
    have hne : r ≠ w.next := by omega
    obtain ⟨hengine, hmanager⟩ := hfresh r (by omega)
    exact ⟨hengine, (hget r).trans ((if_neg hne).trans hmanager)⟩
  case loans =>
    intro ref id
    show ((w.managers.insert w.next m).get? ref).bind _ = (w.managers.get? ref).bind _
    rw [hget]
    split
    · rename_i heq
      rw [heq, (hfresh w.next (Nat.le_refl _)).2]
      simp [hm]
    · rfl
  case engines => exact fun he => ⟨_, he, rfl, rfl, rfl⟩

/-- The books and the names stay as they were over all calls through handles. -/
theorem keptByCalls_steady (w : World) : KeptByCalls fun w' => Steady w w' ∧ SameNames w w' where
  setsFaults h hw := ⟨h.1.trans hw.sameBooks.steady, h.2.trans hw.sameNames⟩
  written h he hwrite := ⟨h.1.trans (steady_of_write he hwrite), h.2.trans ⟨rfl, rfl, rfl⟩⟩

/-- What is done with a depot keeps the books if it does with every depot of the world. -/
theorem ledger_onDepot (h : Ledger w w.borrowings) {name : String} {α : Type}
    {act : Depot → Action World DepotError α}
    (hact : ∀ d, w.depots.get? name = some d →
      Ledger ((act d).exec w).2 ((act d).exec w).2.borrowings) :
    Ledger (w.onDepot name act) (w.onDepot name act).borrowings := by
  unfold onDepot
  split
  · rename_i d hd
    exact hact d hd
  · exact h

/-! ## The life of a depot -/

/-- What the depots have borrowed, with one of them under a new or an old name. -/
theorem Ledger.setDepot {name : String} {d : Depot}
    (h : Ledger w (d.borrowing?.toList ++ w.otherBorrowings name)) :
    Ledger (w.setDepot name d) (w.setDepot name d).borrowings := by
  have hsteady : Steady w (w.setDepot name d) := .of_eq rfl rfl rfl
  exact (h.steady hsteady).perm (borrowings_setDepot w name d).symm

theorem ledger_startNamed {name : String} {d : Depot} (h : Ledger w w.borrowings)
    (hd : w.depots.get? name = some d) :
    Ledger ((startNamed name d).exec w).2 ((startNamed name d).exec w).2.borrowings := by
  have hperm := borrowings_perm w name
  rw [hd, Option.bind_some] at hperm
  refine Ensures.exec_snd (P := fun w' => Ledger w' w'.borrowings) ?_
  refine Ensures.bind ((ensures_start_ledger (h.perm hperm)).weaken (fun _ _ h => h) ?_) ?_
  · intro _ w' h'
    rw [h'.2.borrowings]
    exact h'.1.perm hperm.symm
  · intro p w' h'
    refine ensures_modify ?_
    rw [← h'.2.otherBorrowings name] at h'
    exact h'.1.setDepot

theorem ledger_stopNamed {name : String} {d : Depot} (h : Ledger w w.borrowings)
    (hd : w.depots.get? name = some d) :
    Ledger ((stopNamed name d).run w).2 ((stopNamed name d).run w).2.borrowings := by
  have hperm := borrowings_perm w name
  rw [hd, Option.bind_some] at hperm
  obtain ⟨hstopped, hnames⟩ := ledger_stop (h.perm hperm)
  have hrun : ((stopNamed name d).run w).2 =
      ((stop d).run w).2.setDepot name { d with phase := .closed } := by
    rw [← stop_fst d w]
    rfl
  rw [← hnames.otherBorrowings name] at hstopped
  rw [hrun]
  exact Ledger.setDepot hstopped

/-- A depot that is discarded gives back what it had borrowed. -/
theorem ledger_discardDepot {old : Option Depot} {out : List Borrowing}
    (hold : ∀ d, old = some d → d.scratch = none)
    (h : Ledger w ((old.bind Depot.borrowing?).toList ++ out)) :
    Ledger (discardDepot old w) out ∧ SameNames w (discardDepot old w) := by
  unfold discardDepot
  split
  · rename_i d
    rw [hold d rfl]
    exact ledger_stop h
  · exact ⟨h, .refl w⟩

/-- The depot that has lost its name is closed, and the one that has it now has borrowed nothing yet. -/
theorem ledger_nameDepot (h : Ledger w w.borrowings) (hplain : Plain w) (name : String) {d : Depot}
    (hd : d.borrowing? = none) : Ledger (w.nameDepot name d) (w.nameDepot name d).borrowings := by
  have hsteady : Steady w (w.setDepot name d) := .of_eq rfl rfl rfl
  have hold := (h.perm (borrowings_perm w name)).steady hsteady
  obtain ⟨hledger, hnames⟩ :=
    ledger_discardDepot (fun old hget => (hplain name old hget).2) hold
  have hperm := borrowings_setDepot w name d
  rw [hd, ← hnames.borrowings] at hperm
  exact hledger.perm hperm.symm

theorem ledger_dropDepot (h : Ledger w w.borrowings) (hplain : Plain w) (name : String) :
    Ledger (w.dropDepot name) (w.dropDepot name).borrowings := by
  have hsteady : Steady w { w with depots := w.depots.erase name } := .of_eq rfl rfl rfl
  have hold := (h.perm (borrowings_perm w name)).steady hsteady
  obtain ⟨hledger, hnames⟩ :=
    ledger_discardDepot (fun old hget => (hplain name old hget).2) hold
  rw [show w.otherBorrowings name = (w.dropDepot name).borrowings from hnames.borrowings.symm]
    at hledger
  exact hledger

/-! ## Every call -/

theorem ledger_syncDepot (hw : Consistent w) (h : Ledger w w.borrowings) (d : Depot)
    (devices : List String) :
    Ledger ((syncDepot d devices).exec w).2 ((syncDepot d devices).exec w).2.borrowings := by
  unfold syncDepot
  split
  · rename_i handle hphase
    have hsync := ensures_sync_pushes hw h handle devices .pushOnly
    have hpushes : Pushes (content handle w) w ((sync handle devices .pushOnly).exec w).2 :=
      Ensures.exec_snd (hsync.weaken (fun _ _ h => h.1) fun _ _ h => h)
    exact h.of_steady hpushes.steady hpushes.ways.names.borrowings
  · exact h

/-- Every call keeps the books. -/
theorem ledger_step (hw : Consistent w) (hplain : Plain w) (h : Ledger w w.borrowings) (call : Call) :
    Ledger (step w call) (step w call).borrowings := by
  have hcalls := keptByCalls_steady w
  have hstart : Steady w w ∧ SameNames w w := ⟨.refl w, .refl w⟩
  have hkept {w' : World} (h' : Steady w w' ∧ SameNames w w') : Ledger w' w'.borrowings :=
    h.of_steady h'.1 h'.2.borrowings
  cases call with
  | addManager name app user base networked guarded =>
      exact h.of_steady (steady_addManager h.fresh rfl name) rfl
  | dropManager name => exact h.of_steady (.of_eq rfl rfl rfl) rfl
  | register device manager =>
      simp only [step]
      split
      · exact h.of_steady (.of_eq rfl rfl rfl) rfl
      · exact h
  | unregister device => exact h.of_steady (.of_eq rfl rfl rfl) rfl
  | setFaults manager faults =>
      simp only [step]
      split
      · rename_i ref href
        have hbooks : SameBooks w (w.modifyManager ref fun m =>
            { m with guard := m.guard.map fun guard => { guard with faults } }) :=
          sameBooks_modifyManager (fun _ => ⟨rfl, rfl, rfl⟩) fun _ _ => rfl
        exact h.of_steady hbooks.steady hbooks.ways.names.borrowings
      · exact h
  | addDepot name manager id config =>
      simp only [step]
      split
      · exact ledger_nameDepot h hplain name rfl
      · exact h
  | dropDepot name => exact ledger_dropDepot h hplain name
  | start name => exact ledger_onDepot h fun d hd => ledger_startNamed h hd
  | stop name => exact ledger_onDepot h fun d hd => ledger_stopNamed h hd
  | edit name edit => exact hkept (hcalls.edit hstart name edit)
  | get name key => exact hkept (hcalls.get hstart name key)
  | getSummary name key => exact hkept (hcalls.getSummary hstart name key)
  | getAll name front => exact hkept (hcalls.getAll hstart name front)
  | sync name devices => exact ledger_onDepot h fun d _ => ledger_syncDepot hw h d devices

/-! ## Every run -/

theorem ledger_run (hw : Consistent w) (hplain : Plain w) (h : Ledger w w.borrowings)
    (calls : List Call) : Ledger (run w calls) (run w calls).borrowings := by
  induction calls generalizing w with
  | nil => exact h
  | cons call calls ih =>
      -- The world stays consistent as well, which is what pushes rely on.
      obtain ⟨hmoves, hplain'⟩ := moves_step hw hplain call
      exact ih (hw.moves hmoves) hplain' (ledger_step hw hplain h call)

/-- A disk without logs, and nothing else: nothing is borrowed there. -/
theorem ledger_of_disk (disk : Disk) : Ledger { disk } (borrowings { disk }) where
  fresh _ _ := ⟨rfl, rfl⟩
  lent h := by cases h
  apart h := by cases h
  counted b hb := by cases hb

/-- Whatever was called, the books cover what the depots have borrowed. -/
theorem ledger_of_run {disk : Disk} (hfresh : ∀ place, disk.content? (Engine.logPlace place) = none)
    (calls : List Call) : Ledger (run { disk } calls) (run { disk } calls).borrowings :=
  ledger_run (consistent_of_disk hfresh) (plain_of_disk disk) (ledger_of_disk disk) calls

end ObjectStore.World
