import ObjectStore.Proofs.World.Aside
import ObjectStore.Proofs.World.Closed

/-!
# What a manager has on loan over a run

A manager without guard lends the engines of its stores and takes them back, and between its loans and
returns everything else happens, as long as nobody closes past it what it has on loan. At every point its
books say how many loans there were more than returns; a store is open as long as there are more, and from
the return that makes them even on it is closed for good, whatever is lent under its id later.

Main statement: `reckoned_of_deals`.
-/

namespace ObjectStore.World

open ObjectStore.Action

/-! ## Deals -/

/-- One call to a manager with its answer. What is given back is told with the id of its store. -/
inductive Deal where
  | lend (id : String) (options : Options) (answer : Except StorageError Handle)
  | reclaim (id : String) (handle : Handle) (answer : Except StorageError Unit)

namespace Deal

/-- A loan under the id. -/
def isLoan (id : String) : Deal → Bool
  | .lend id' _ (.ok _) => id' == id
  | _ => false

/-- A return under the id. -/
def isReturn (id : String) : Deal → Bool
  | .reclaim id' _ (.ok _) => id' == id
  | _ => false

/-- How often a store was lent. -/
def loans (log : List Deal) (id : String) : Nat :=
  log.countP (isLoan id)

/-- How often a store was given back. -/
def returns (log : List Deal) (id : String) : Nat :=
  log.countP (isReturn id)

theorem loans_append (log log' : List Deal) (id : String) :
    loans (log ++ log') id = loans log id + loans log' id := List.countP_append

theorem returns_append (log log' : List Deal) (id : String) :
    returns (log ++ log') id = returns log id + returns log' id := List.countP_append

/-- At some point of the log as much was given back as was lent, together with what was lent before. -/
def Spent (lent : Nat) (log : List Deal) (id : String) : Prop :=
  ∃ front, front <+: log ∧ lent + loans front id = returns front id

section Spent

variable {lent : Nat} {log deals : List Deal} {id : String}

theorem Spent.append (h : Spent lent log id) (deals : List Deal) : Spent lent (log ++ deals) id := by
  obtain ⟨front, hfront, hsum⟩ := h
  exact ⟨front, hfront.trans (List.prefix_append log deals), hsum⟩

/-- After one deal more it is so if it was so before, or if it is so just now. -/
theorem spent_append_iff (hdeals : deals.length ≤ 1) :
    Spent lent (log ++ deals) id ↔
      Spent lent log id ∨ lent + loans (log ++ deals) id = returns (log ++ deals) id := by
  constructor
  case mp =>
    rintro ⟨front, hfront, hsum⟩
    rcases deals with _ | ⟨deal, _ | ⟨_, _⟩⟩
    · rw [List.append_nil] at hfront
      exact .inl ⟨front, hfront, hsum⟩
    · rcases List.prefix_concat_iff.mp hfront with rfl | hfront
      · exact .inr hsum
      · exact .inl ⟨front, hfront, hsum⟩
    · simp at hdeals
  case mpr =>
    rintro (h | h)
    · exact h.append deals
    · exact ⟨log ++ deals, List.prefix_refl _, h⟩

end Spent

end Deal

/-- A manager is asked for loans and is given back what callers have under any names, and between that
other things happen that spare it. The log has its answers. -/
inductive Deals (ref : ManagerRef) (w : World) : List Deal → World → Prop where
  | nil : Deals ref w [] w
  | lend {log : List Deal} {w' : World} (name manager id : String) (options : Options) :
      Deals ref w log w' → w'.managerNames.get? manager = some ref →
      Deals ref w (log ++ [.lend id options ((World.lend ref id options).exec w').1])
        (happen w' (.lend name manager id options))
  | reclaim {log : List Deal} {w' : World} {handle : Handle} {e : Engine} (manager name : String) :
      Deals ref w log w' → w'.managerNames.get? manager = some ref →
      w'.handleNames.get? name = some handle → w'.engines.get? handle.engine = some e →
      Deals ref w (log ++ [.reclaim e.id handle ((World.reclaim ref handle).exec w').1])
        (happen w' (.reclaim manager name))
  | aside {log : List Deal} {w' : World} (event : Event) :
      Deals ref w log w' → w'.Spares ref event → Deals ref w log (happen w' event)

/-- What one step of such a run comes to. -/
inductive Turn (ref : ManagerRef) (w w' : World) : List Deal → Prop where
  | lent {id : String} {options : Options} {engine : EngineRef} {w₁ : World} :
      LendsHandle w ref id options (.direct engine) w₁ → Permits w ref id options →
      Aside ref w₁ w' → Turn ref w w' [.lend id options (.ok (.direct engine))]
  | denied {id : String} {options : Options} {err : StorageError} :
      Aside ref w w' → Turn ref w w' [.lend id options (.error err)]
  | returned {e : Engine} {engine : EngineRef} :
      w.engines.get? engine = some e → ReturnsEngine w ref e.id engine w' →
      Turn ref w w' [.reclaim e.id (.direct engine) (.ok ())]
  | refused {id : String} {handle : Handle} {err : StorageError} :
      Aside ref w w' → Turn ref w w' [.reclaim id handle (.error err)]
  | aside : Aside ref w w' → Turn ref w w' []

/-! ## What is on loan is open -/

/-- What a manager has on loan is open, and it has an id that passes. -/
def Alive (w : World) (ref : ManagerRef) : Prop :=
  ∀ id loan, w.loan? ref id = some loan →
    Manager.checkId id = .ok () ∧
      ∃ e, w.engines.get? loan.engine = some e ∧ e.isClosed = false

namespace Alive

variable {w w' : World} {ref : ManagerRef} {id : String} {options : Options}

theorem aside (h : Alive w ref) (haside : Aside ref w w') : Alive w' ref := by
  intro id loan hloan
  rw [haside.loans] at hloan
  obtain ⟨hid, e, he, hopen⟩ := h id loan hloan
  obtain ⟨e', he', -, -, -, hsame⟩ := haside.engines he
  exact ⟨hid, e', he', (hsame ⟨id, loan, hloan, rfl⟩).trans hopen⟩

theorem lends {handle : Handle} (h : Alive w ref) (hfresh : Fresh w)
    (hlends : LendsHandle w ref id options handle w') (hpermits : Permits w ref id options) :
    Alive w' ref := by
  have hbooks := hlends.lends
  intro id' loan hloan
  rcases hbooks.loan_cases hloan with ⟨⟨-, rfl⟩, hengine, -⟩ | hold
  · refine ⟨hpermits.name, ?_⟩
    rw [hengine]
    cases hbooks.source with
    | again hloan' hengine' _ _ hengines =>
        obtain ⟨-, e, he, hopen⟩ := h _ _ hloan'
        exact ⟨e, by rw [hengines, ← hengine', he], hopen⟩
    | @first m e _ _ _ hopens hengines =>
        exact ⟨e, by rw [hengines, SortedMap.get?_insert, if_pos rfl], hopens.engine.2.2⟩
  · obtain ⟨hid, e, he, hopen⟩ := h _ _ hold
    exact ⟨hid, e, hbooks.get?_engines hfresh he, hopen⟩

theorem returns {engine : EngineRef} (h : Alive w ref) (hbooked : Booked w)
    (hreturns : Returns w ref id engine w') : Alive w' ref := by
  obtain ⟨loan, hloan, hengine, -⟩ := hreturns.loan
  intro id' loan' hloan'
  obtain ⟨old, hold, hsame⟩ := hreturns.exists_loan hloan'
  obtain ⟨hid, e, he, hopen⟩ := h _ _ hold
  rw [hsame] at he
  refine ⟨hid, e, ?_, hopen⟩
  rcases hreturns.engines he with hkept | ⟨hclosed, hnone, -⟩
  · exact hkept
  -- An engine is closed only with the last loan of its entry, and that entry is gone.
  · obtain ⟨-, rfl⟩ := hbooked.entry_eq hold hloan (hsame.trans (hclosed.trans hengine.symm))
    rw [hnone] at hloan'
    cases hloan'

end Alive

/-- A manager without guard, in a world that is accounted for, has open what it has on loan. -/
structure Keeps (ref : ManagerRef) (w : World) : Prop where
  accounted : Accounted w
  unguarded : w.guarded? ref = some false
  alive : Alive w ref

/-! ## Single calls to a manager without guard -/

section Calls

variable {ref : ManagerRef} {w w' : World} {id : String} {options : Options}

theorem exists_manager_of_unguarded (h : w.guarded? ref = some false) :
    ∃ m, w.managers.get? ref = some m ∧ m.guard = none := by
  obtain ⟨m, hm, hguard⟩ := Option.map_eq_some_iff.mp h
  exact ⟨m, hm, by simpa using hguard⟩

/-- Without a guard engines are lent as they are. -/
theorem LendsHandle.direct_of_unguarded {handle : Handle} (h : LendsHandle w ref id options handle w')
    (hguard : w.guarded? ref = some false) : handle = .direct handle.engine := by
  have haccepts := h.accepts
  cases handle with
  | direct engine => rfl
  | wrapped serial lender engine =>
      obtain ⟨m, hm, hnone⟩ := exists_manager_of_unguarded ((h.guarded?_eq ref).trans hguard)
      simp [Accepts, Manager.accepts, hm, hnone] at haccepts

/-- A manager without guard takes back its engines, and it knows no wrappers. -/
theorem exec_reclaim_of_unguarded {handle : Handle} {e : Engine} (h : w.guarded? ref = some false)
    (he : w.engines.get? handle.engine = some e) :
    (reclaim ref handle).exec w =
      match handle with
      | .direct engine => (reclaimEngine ref e.id engine).exec w
      | .wrapped _ _ _ => (.error (.storeNotFound e.id), w) := by
  obtain ⟨m, hm, hguard⟩ := exists_manager_of_unguarded h
  unfold reclaim managerOf engineOf
  simp only [exec_bind, exec_get, hm, he, exec_pure, hguard]
  cases handle <;> rfl

/-- What is not on loan under its id is not taken back, and nothing happens. -/
theorem reclaim_of_not_lent {handle : Handle} {e : Engine} (h : w.guarded? ref = some false)
    (he : w.engines.get? handle.engine = some e)
    (hnot : ∀ loan, w.loan? ref e.id = some loan → handle ≠ .direct loan.engine) :
    (reclaim ref handle).exec w = (.error (.storeNotFound e.id), w) := by
  obtain ⟨m, hm, -⟩ := exists_manager_of_unguarded h
  rw [exec_reclaim_of_unguarded h he]
  cases handle with
  | wrapped serial lender engine => rfl
  | direct engine =>
      unfold reclaimEngine managerOf
      simp only [exec_bind, exec_get, hm, exec_pure]
      cases hloan : m.loans.get? e.id with
      | none => rfl
      | some loan =>
          have hne : loan.engine ≠ engine := by
            rintro rfl
            exact hnot loan (by simp [loan?, hm, hloan]) rfl
          simp only [hne, if_false, exec_throw]

/-- What is on loan is taken back. -/
theorem reclaim_of_lent {loan : Loan} (h : Keeps ref w) (hloan : w.loan? ref id = some loan) :
    ∃ w', (reclaim ref (.direct loan.engine)).exec w = (.ok (), w') ∧
      ReturnsEngine w ref id loan.engine w' := by
  obtain ⟨-, e, he, hid⟩ := h.accounted.booked.lent hloan
  have haccepts : Accepts w ref (.direct loan.engine) := accepts_direct_iff.mpr h.unguarded
  have hreturns := ensures_reclaim_accepted haccepts he (by rwa [hid]) rfl
  unfold Ensures at hreturns
  rcases hexec : (reclaim ref (.direct loan.engine)).exec w with ⟨err | _, w'⟩
  · rw [hexec] at hreturns
    exact hreturns.elim
  · rw [hexec, hid] at hreturns
    exact ⟨w', rfl, hreturns⟩

/-- A store on loan is lent once more to everyone who asks for the same layout. -/
theorem exec_lend_of_lent {loan : Loan} {e : Engine} (h : Keeps ref w)
    (hloan : w.loan? ref id = some loan) (he : w.engines.get? loan.engine = some e)
    (options : Options) :
    (lend ref id options).exec w =
      if e.options.sameLayout options then
        (.ok (.direct loan.engine), w.modifyManager ref fun m =>
          { m with loans := m.loans.insert id { loan with handles := loan.handles + 1 } })
      else (.error (.invalidArgs s!"store {id} is already open with different options"), w) := by
  obtain ⟨m, hm, hguard⟩ := exists_manager_of_unguarded h.unguarded
  have hloan' : m.loans.get? id = some loan := by simpa [loan?, hm] using hloan
  unfold lend lendEngine managerOf engineOf
  cases hlayout : e.options.sameLayout options <;>
    simp only [exec_bind, exec_get, hm, exec_pure, exec_answer, (h.alive id loan hloan).1, hloan', he,
      Handle.engine, hguard, hlayout, if_true, Bool.false_eq_true, if_false, exec_modify, exec_throw,
      Option.isSome_none]

end Calls

/-! ## Steps of a run -/

section Turns

variable {ref : ManagerRef} {w w' : World} {deals log : List Deal}

theorem Keeps.turn (h : Keeps ref w) (hturn : Turn ref w w' deals) (haccounted : Accounted w') :
    Keeps ref w' := by
  have hbooked := h.accounted.booked
  have hof_aside (haside : Aside ref w w') : Keeps ref w' :=
    ⟨haccounted, haside.guarded.trans h.unguarded, h.alive.aside haside⟩
  cases hturn with
  | lent hlends hpermits haside =>
      exact ⟨haccounted, haside.guarded.trans ((hlends.guarded?_eq ref).trans h.unguarded),
        (h.alive.lends hbooked.fresh hlends hpermits).aside haside⟩
  | denied haside => exact hof_aside haside
  | returned _ hreturns =>
      refine ⟨haccounted, ?_, h.alive.returns hbooked hreturns.returns⟩
      rw [guarded?_eq_switches?, hreturns.sameGuards.switches, ← guarded?_eq_switches?, h.unguarded]
  | refused haside => exact hof_aside haside
  | aside haside => exact hof_aside haside

/-- A loan under a name. -/
theorem Keeps.turn_lend (h : Keeps ref w) (name id : String) {manager : String} (options : Options)
    (hname : w.managerNames.get? manager = some ref) :
    Turn ref w (happen w (.lend name manager id options))
      [.lend id options ((lend ref id options).exec w).1] := by
  have hlend := ensures_lend_or_denies ref id options w
  unfold Ensures at hlend
  simp only [happen, hname, lendNamed, exec_bind]
  rcases hexec : (lend ref id options).exec w with ⟨err | handle, w'⟩
  · rw [hexec] at hlend
    exact .denied (hlend.refused.aside ref)
  · rw [hexec] at hlend
    obtain ⟨hlends, hpermits⟩ := hlend
    have hdirect := hlends.direct_of_unguarded h.unguarded
    rw [hdirect] at hlends ⊢
    exact .lent hlends hpermits (.of_eq rfl rfl rfl)

/-- A return of what has a name. -/
theorem Keeps.turn_reclaim (h : Keeps ref w) {manager name : String} {handle : Handle} {e : Engine}
    (hname : w.managerNames.get? manager = some ref)
    (hhandle : w.handleNames.get? name = some handle)
    (he : w.engines.get? handle.engine = some e) :
    Turn ref w (happen w (.reclaim manager name))
      [.reclaim e.id handle ((reclaim ref handle).exec w).1] := by
  simp only [happen, hname, onHandle, hhandle]
  by_cases hlent : ∃ loan, w.loan? ref e.id = some loan ∧ handle = .direct loan.engine
  · obtain ⟨loan, hloan, rfl⟩ := hlent
    obtain ⟨w', hexec, hreturns⟩ := reclaim_of_lent h hloan
    rw [hexec]
    exact .returned he hreturns
  · rw [reclaim_of_not_lent h.unguarded he fun loan hloan heq => hlent ⟨loan, hloan, heq⟩]
    exact .refused (.refl ref w)

/-- Every step of a run is one of the turns, so that what they keep holds at its end. -/
theorem Deals.induct {P : List Deal → World → Prop} (h : Deals ref w log w') (hkeeps : Keeps ref w)
    (hnil : P [] w)
    (hturn : ∀ {log w₁ deals w₂}, Keeps ref w₁ → Keeps ref w₂ → P log w₁ → Turn ref w₁ w₂ deals →
      P (log ++ deals) w₂) : Keeps ref w' ∧ P log w' := by
  have hstep {log : List Deal} {w₁ : World} {deals : List Deal} (event : Event)
      (h : Keeps ref w₁ ∧ P log w₁) (hdeals : Turn ref w₁ (happen w₁ event) deals) :
      Keeps ref (happen w₁ event) ∧ P (log ++ deals) (happen w₁ event) := by
    have hkeeps' := h.1.turn hdeals (accounted_happen h.1.accounted event)
    exact ⟨hkeeps', hturn h.1 hkeeps' h.2 hdeals⟩
  induction h with
  | nil => exact ⟨hkeeps, hnil⟩
  | lend name manager id options _ hname ih =>
      exact hstep _ ih (ih.1.turn_lend name id options hname)
  | reclaim manager name _ hname hhandle he ih =>
      exact hstep _ ih (ih.1.turn_reclaim hname hhandle he)
  | @aside log w₁ event _ hspares ih =>
      have hthere : (w₁.guarded? ref).isSome := by
        rw [ih.1.unguarded]
        rfl
      have hnew := ne_next_of_guarded? ih.1.accounted.booked.fresh hthere
      have haside := aside_happen ih.1.accounted hnew hspares
      have hnext := hstep event ih (.aside haside)
      rwa [List.append_nil] at hnext

/-! ## Counts -/

/-- How many handles of a store are out. -/
def handles (w : World) (ref : ManagerRef) (id : String) : Nat :=
  (w.loan? ref id).elim 0 Loan.handles

theorem handles_of_loan {w : World} {id : String} {loan : Loan} (h : w.loan? ref id = some loan) :
    w.handles ref id = loan.handles := by
  simp [handles, h]

theorem Aside.handles_eq (h : Aside ref w w') (id : String) : w'.handles ref id = w.handles ref id := by
  unfold handles
  rw [h.loans]

theorem Lends.handles_eq {id id' : String} {options : Options} {engine : EngineRef}
    (h : Lends w ref id options engine w') :
    w'.handles ref id' = w.handles ref id' + if id = id' then 1 else 0 := by
  by_cases heq : id = id'
  · subst heq
    simp [handles, h.loan]
  · have hother : w'.loan? ref id' = w.loan? ref id' := h.loans fun hentry => heq hentry.2.symm
    simp [handles, hother, heq]

theorem Returns.handles_eq {id id' : String} {engine : EngineRef} (hbooked : Booked w)
    (h : Returns w ref id engine w') :
    w'.handles ref id' + (if id = id' then 1 else 0) = w.handles ref id' := by
  by_cases heq : id = id'
  · subst heq
    obtain ⟨loan, hloan, -, hleft⟩ := h.loan
    obtain ⟨hpos, -⟩ := hbooked.lent hloan
    rw [handles_of_loan hloan, handles, hleft]
    by_cases hmore : 1 < loan.handles
    · simp [hmore]
      omega
    · simp [hmore]
      omega
  · have hother : w'.loan? ref id' = w.loan? ref id' := h.loans fun hentry => heq hentry.2.symm
    simp [handles, hother, heq]

/-- A step changes the number of handles by what its deal says. -/
theorem Turn.handles_eq (h : Turn ref w w' deals) (hbooked : Booked w) (id : String) :
    w'.handles ref id + Deal.returns deals id = w.handles ref id + Deal.loans deals id := by
  cases h with
  | lent hlends _ haside =>
      rw [haside.handles_eq, hlends.lends.handles_eq]
      simp [Deal.loans, Deal.returns, Deal.isLoan, Deal.isReturn, List.countP_cons]
  | denied haside =>
      rw [haside.handles_eq]
      simp [Deal.loans, Deal.returns, Deal.isLoan, Deal.isReturn]
  | returned _ hreturns =>
      rw [← hreturns.returns.handles_eq hbooked]
      simp [Deal.loans, Deal.returns, Deal.isLoan, Deal.isReturn, List.countP_cons]
  | refused haside =>
      rw [haside.handles_eq]
      simp [Deal.loans, Deal.returns, Deal.isLoan, Deal.isReturn]
  | aside haside =>
      rw [haside.handles_eq]
      rfl

theorem Turn.length_le (h : Turn ref w w' deals) : deals.length ≤ 1 := by
  cases h <;> simp

/-! ## What becomes of a store -/

/-- The engine is closed and on loan no more. -/
def IsOver (w : World) (ref : ManagerRef) (r : EngineRef) : Prop :=
  (∃ e, w.engines.get? r = some e ∧ e.isClosed = true) ∧ ¬ w.IsLent ref r

theorem Aside.isOver {r : EngineRef} (h : Aside ref w w') (hover : IsOver w ref r) :
    IsOver w' ref r := by
  obtain ⟨⟨e, he, hclosed⟩, hnot⟩ := hover
  obtain ⟨e', he', -, -, hstays, -⟩ := h.engines he
  exact ⟨⟨e', he', hstays hclosed⟩, fun hlent => hnot ((h.isLent_iff r).mp hlent)⟩

/-- What is over stays so: a loan under the same id is one of another engine. -/
theorem Turn.isOver {r : EngineRef} (h : Turn ref w w' deals) (hbooked : Booked w)
    (hover : IsOver w ref r) : IsOver w' ref r := by
  cases h with
  | @lent id options engine w₁ hlends _ haside =>
      refine haside.isOver ?_
      obtain ⟨⟨e, he, hclosed⟩, hnot⟩ := hover
      have hbooks := hlends.lends
      refine ⟨⟨e, hbooks.get?_engines hbooked.fresh he, hclosed⟩, fun hlent => ?_⟩
      rcases hbooks.isLent_cases hbooked.fresh hlent with hold | hnew
      · exact hnot hold
      · rw [he] at hnew
        cases hnew
  | denied haside => exact haside.isOver hover
  | returned _ hreturns =>
      obtain ⟨⟨e, he, hclosed⟩, hnot⟩ := hover
      constructor
      · obtain ⟨e', he', -, hstays⟩ := hreturns.returns.exists_engine he
        exact ⟨e', he', hstays hclosed⟩
      · exact fun hlent => hnot (hreturns.returns.isLent hlent)
  | refused haside => exact haside.isOver hover
  | aside haside => exact haside.isOver hover

/-- With the last loan the engine is closed. -/
theorem ReturnsEngine.isOver {id : String} {engine : EngineRef} {e : Engine} (hbooked : Booked w)
    (h : ReturnsEngine w ref id engine w') (he : w.engines.get? engine = some e)
    (hnone : w'.loan? ref id = none) : IsOver w' ref engine := by
  have hreturns := h.returns
  obtain ⟨loan, hloan, hengine, -⟩ := hreturns.loan
  constructor
  · cases h with
    | @fewer m loan hm hloan =>
        simp [loan?_modifyManager, hm, SortedMap.get?_insert] at hnone
    | last =>
        refine ⟨e.close, ?_, rfl⟩
        rw [engines_closeEngine engine (by rw [engines_modifyManager]; exact he), if_pos rfl]
  · rintro ⟨id', loan', hloan', hengine'⟩
    obtain ⟨old, hold, hsame⟩ := hreturns.exists_loan hloan'
    obtain ⟨-, rfl⟩ := hbooked.entry_eq hold hloan (hsame.trans (hengine'.trans hengine.symm))
    rw [hnone] at hloan'
    cases hloan'

/-- What has become of a loan over a log: the engine is on loan still, or as much was given back at some
point as was lent, and since then it is over. -/
inductive Standing (ref : ManagerRef) (id : String) (loan : Loan) (log : List Deal) (w : World) :
    Prop where
  | kept {loan' : Loan} : w.loan? ref id = some loan' → loan'.engine = loan.engine →
      loan'.handles + Deal.returns log id = loan.handles + Deal.loans log id →
      ¬ Deal.Spent loan.handles log id → Standing ref id loan log w
  | ended : Deal.Spent loan.handles log id → IsOver w ref loan.engine → Standing ref id loan log w

theorem Standing.turn {id : String} {loan : Loan} (h : Standing ref id loan log w)
    (hbooked : Booked w) (hbooked' : Booked w') (hturn : Turn ref w w' deals) :
    Standing ref id loan (log ++ deals) w' := by
  cases h with
  | ended hspent hover => exact .ended (hspent.append deals) (hturn.isOver hbooked hover)
  | @kept loan' hloan' hengine hcount hspent =>
      have hhandles := hturn.handles_eq hbooked id
      rw [handles_of_loan hloan'] at hhandles
      have hsum : w'.handles ref id + Deal.returns (log ++ deals) id =
          loan.handles + Deal.loans (log ++ deals) id := by
        rw [Deal.returns_append, Deal.loans_append]
        omega
      have hiff := @Deal.spent_append_iff loan.handles log deals id hturn.length_le
      -- As long as there is an entry, it is one of the same engine and counts at least one.
      have hkept {loan'' : Loan} (hloan'' : w'.loan? ref id = some loan'')
          (hsame : loan''.engine = loan'.engine) : Standing ref id loan (log ++ deals) w' := by
        obtain ⟨hpos, -⟩ := hbooked'.lent hloan''
        rw [handles_of_loan hloan''] at hsum
        refine .kept hloan'' (hsame.trans hengine) hsum fun h => ?_
        rcases hiff.mp h with hbefore | hnow
        · exact hspent hbefore
        · omega
      have hof_aside (haside : Aside ref w w') : Standing ref id loan (log ++ deals) w' :=
        hkept ((haside.loans id).trans hloan') rfl
      cases hturn with
      | @lent id' options engine w₁ hlends _ haside =>
          obtain ⟨loan'', hloan'', hsame⟩ := hlends.lends.kept_loan hloan'
          exact hkept ((haside.loans id).trans hloan'') hsame
      | denied haside => exact hof_aside haside
      | @returned e engine he hreturns =>
          cases hleft : w'.loan? ref id with
          | some loan'' =>
              obtain ⟨old, hold, hsame⟩ := hreturns.returns.exists_loan hleft
              rw [hloan'] at hold
              cases hold
              exact hkept hleft hsame.symm
          | none =>
              -- The entry has gone with this return, and so it was of the engine that is returned.
              have heq : id = e.id := by
                apply Classical.byContradiction
                intro hne
                rw [hreturns.returns.loans fun hentry => hne hentry.2, hloan'] at hleft
                cases hleft
              obtain ⟨old, hold, hengine', -⟩ := hreturns.returns.loan
              rw [← heq, hloan'] at hold
              cases hold
              rw [← heq] at hreturns
              have hover := hreturns.isOver hbooked he hleft
              rw [← hengine', hengine] at hover
              refine .ended (hiff.mpr (.inr ?_)) hover
              rw [handles, hleft, Option.elim_none] at hsum
              omega
      | refused haside => exact hof_aside haside
      | aside haside => exact hof_aside haside

/-- A loan stands before anything has happened to it. -/
theorem standing_nil {id : String} {loan : Loan} (hbooked : Booked w)
    (hloan : w.loan? ref id = some loan) : Standing ref id loan [] w := by
  obtain ⟨hpos, -⟩ := hbooked.lent hloan
  refine .kept hloan rfl rfl ?_
  rintro ⟨front, hfront, hsum⟩
  rw [List.prefix_nil.mp hfront] at hsum
  simp [Deal.loans, Deal.returns] at hsum
  omega

/-- What was lent over a log is on loan under its id, or it is over. -/
def Traced (ref : ManagerRef) (log : List Deal) (w : World) : Prop :=
  ∀ id options handle, .lend id options (.ok handle) ∈ log →
    handle = .direct handle.engine ∧
      ((∃ loan, w.loan? ref id = some loan ∧ loan.engine = handle.engine) ∨
        IsOver w ref handle.engine)

theorem Traced.turn (h : Traced ref log w) (hbooked : Booked w) (hbooked' : Booked w')
    (hturn : Turn ref w w' deals) : Traced ref (log ++ deals) w' := by
  intro id options handle hmem
  rcases List.mem_append.mp hmem with hold | hnew
  · obtain ⟨hdirect, ⟨loan, hloan, hengine⟩ | hover⟩ := h id options handle hold
    · refine ⟨hdirect, ?_⟩
      rw [← hengine]
      cases (standing_nil hbooked hloan).turn hbooked hbooked' hturn with
      | kept hloan' hsame => exact .inl ⟨_, hloan', hsame⟩
      | ended _ hover => exact .inr hover
    · exact ⟨hdirect, .inr (hturn.isOver hbooked hover)⟩
  · cases hturn with
    | lent hlends _ haside =>
        cases List.mem_singleton.mp hnew
        exact ⟨rfl, .inl ⟨_, (haside.loans id).trans hlends.lends.loan, rfl⟩⟩
    | denied => cases List.mem_singleton.mp hnew
    | returned => cases List.mem_singleton.mp hnew
    | refused => cases List.mem_singleton.mp hnew
    | aside => cases hnew

end Turns

/-! ## Every run -/

/-- What can be said of a manager without guard after a run whose calls to it are those of the log. -/
structure Reckoned (ref : ManagerRef) (w : World) (log : List Deal) (w' : World) : Prop where
  counted : ∀ id, w'.handles ref id + Deal.returns log id = w.handles ref id + Deal.loans log id
  /-- What is on loan counts at least one handle, is the store of its id, and works. -/
  lent : ∀ id loan, w'.loan? ref id = some loan → 0 < loan.handles ∧
    (∃ e, w'.engines.get? loan.engine = some e ∧ e.id = id) ∧
      NeverClosed (.direct loan.engine) w'
  /-- Of all stores that were lent under an id only the one that is on loan there is not closed. -/
  single : ∀ id options handle, .lend id options (.ok handle) ∈ log →
    (∃ loan, w'.loan? ref id = some loan ∧ handle = .direct loan.engine) ∨ AlwaysClosed handle w'
  /-- A store works until as much was given back as was lent. -/
  unspent : ∀ id loan, w.loan? ref id = some loan → ¬ Deal.Spent loan.handles log id →
    NeverClosed (.direct loan.engine) w'
  /-- From then on it is closed, whatever else the log has. -/
  spent : ∀ id loan, w.loan? ref id = some loan → Deal.Spent loan.handles log id →
    AlwaysClosed (.direct loan.engine) w'
  /-- The store on loan is lent again to those who ask for the same layout, and to no one else. -/
  again : ∀ id loan e options, w'.loan? ref id = some loan →
    w'.engines.get? loan.engine = some e →
      if e.options.memoryOnly = options.memoryOnly ∧
          e.options.directoryById = options.directoryById ∧
          e.options.encrypted = options.encrypted ∧ e.options.security = options.security then
        ((lend ref id options).exec w').1 = .ok (.direct loan.engine)
      else
        (lend ref id options).exec w' =
          (.error (.invalidArgs s!"store {id} is already open with different options"), w')
  /-- A loan that fails adds to the disk at most. -/
  denied : ∀ id options err w'', (lend ref id options).exec w' = (.error err, w'') →
    ∃ disk, w'' = { w' with disk }
  taken : ∀ id loan, w'.loan? ref id = some loan →
    ((reclaim ref (.direct loan.engine)).exec w').1 = .ok ()
  /-- What is not on loan under its id is refused, also if another store is on loan there. -/
  refused : ∀ handle e, w'.engines.get? handle.engine = some e →
    (∀ loan, w'.loan? ref e.id = some loan → handle ≠ .direct loan.engine) →
      (reclaim ref handle).exec w' = (.error (.storeNotFound e.id), w')

section Runs

variable {ref : ManagerRef} {w w' : World} {log : List Deal}

theorem sameLayout_iff {a b : Options} :
    a.sameLayout b = true ↔ a.memoryOnly = b.memoryOnly ∧ a.directoryById = b.directoryById ∧
      a.encrypted = b.encrypted ∧ a.security = b.security := by
  simp [Options.sameLayout, and_assoc]

theorem IsOver.alwaysClosed {r : EngineRef} (h : IsOver w ref r) : AlwaysClosed (.direct r) w := by
  obtain ⟨⟨e, he, hclosed⟩, -⟩ := h
  exact alwaysClosed_of_closed he hclosed

theorem Keeps.neverClosed {id : String} {loan : Loan} (h : Keeps ref w)
    (hloan : w.loan? ref id = some loan) : NeverClosed (.direct loan.engine) w := by
  obtain ⟨-, e, he, hopen⟩ := h.alive id loan hloan
  exact neverClosed_of_open he hopen

theorem Deals.keeps (h : Deals ref w log w') (hkeeps : Keeps ref w) : Keeps ref w' :=
  (h.induct (P := fun _ _ => True) hkeeps trivial fun _ _ _ _ => trivial).1

/-- Over every run from a world where a manager has open what it has on loan. -/
theorem Keeps.reckoned (hkeeps : Keeps ref w) (h : Deals ref w log w') : Reckoned ref w log w' := by
  have hkeeps' := h.keeps hkeeps
  have hcounted (id : String) :
      w'.handles ref id + Deal.returns log id = w.handles ref id + Deal.loans log id := by
    refine (h.induct (P := fun log w' => w'.handles ref id + Deal.returns log id =
      w.handles ref id + Deal.loans log id) hkeeps rfl ?_).2
    intro log w₁ deals w₂ hkeeps₁ _ hcount hturn
    have hstep := hturn.handles_eq hkeeps₁.accounted.booked id
    rw [Deal.returns_append, Deal.loans_append]
    omega
  have htraced : Traced ref log w' := by
    refine (h.induct (P := Traced ref) hkeeps (fun _ _ _ hmem => nomatch hmem) ?_).2
    intro log w₁ deals w₂ hkeeps₁ hkeeps₂ htraced hturn
    exact htraced.turn hkeeps₁.accounted.booked hkeeps₂.accounted.booked hturn
  have hstanding (id : String) (loan : Loan) (hloan : w.loan? ref id = some loan) :
      Standing ref id loan log w' := by
    refine (h.induct (P := Standing ref id loan) hkeeps
      (standing_nil hkeeps.accounted.booked hloan) ?_).2
    intro log w₁ deals w₂ hkeeps₁ hkeeps₂ hstanding hturn
    exact hstanding.turn hkeeps₁.accounted.booked hkeeps₂.accounted.booked hturn
  constructor
  case counted => exact hcounted
  case lent =>
    intro id loan hloan
    obtain ⟨hpos, hengine⟩ := hkeeps'.accounted.booked.lent hloan
    exact ⟨hpos, hengine, hkeeps'.neverClosed hloan⟩
  case single =>
    intro id options handle hmem
    obtain ⟨hdirect, ⟨loan, hloan, hengine⟩ | hover⟩ := htraced id options handle hmem
    · exact .inl ⟨loan, hloan, by rw [hdirect, hengine]⟩
    · rw [hdirect]
      exact .inr hover.alwaysClosed
  case unspent =>
    intro id loan hloan hspent
    cases hstanding id loan hloan with
    | kept hloan' hengine =>
        rw [← hengine]
        exact hkeeps'.neverClosed hloan'
    | ended hover => exact absurd hover hspent
  case spent =>
    intro id loan hloan hspent
    cases hstanding id loan hloan with
    | kept _ _ _ hnot => exact absurd hspent hnot
    | ended _ hover => exact hover.alwaysClosed
  case again =>
    intro id loan e options hloan he
    rw [exec_lend_of_lent hkeeps' hloan he]
    split
    · rename_i hlayout
      rw [if_pos (sameLayout_iff.mpr hlayout)]
    · rename_i hlayout
      rw [if_neg fun h => hlayout (sameLayout_iff.mp h)]
  case denied =>
    intro id options err w'' hexec
    have hlend := ensures_lend ref id options w'
    unfold Ensures at hlend
    rw [hexec] at hlend
    obtain ⟨disk, -, hsame⟩ := hlend.exists_extends
    exact ⟨disk, hsame⟩
  case taken =>
    intro id loan hloan
    obtain ⟨w'', hexec, -⟩ := reclaim_of_lent hkeeps' hloan
    rw [hexec]
  case refused => exact fun handle e he hnot => reclaim_of_not_lent hkeeps'.unguarded he hnot

/-- A manager that is new has nothing on loan. -/
theorem keeps_of_addManager (h : Accounted w) (name app user : String) (base : Option String)
    (networked : Bool) :
    Keeps w.next (happen w (.call (.addManager name app user base networked false))) := by
  have hm : (happen w (.call (.addManager name app user base networked false))).managers.get? w.next =
      some { app, user, base, networked } := by
    show (w.managers.insert w.next _).get? w.next = _
    rw [SortedMap.get?_insert, if_pos rfl]
    rfl
  refine ⟨accounted_happen h _, by rw [guarded?, hm]; rfl, fun id loan hloan => ?_⟩
  rw [loan?, hm] at hloan
  cases hloan

/-- Whatever has happened before a manager without guard comes, and whatever happens besides: between any
two points of its runs its books follow the calls to it. -/
theorem reckoned_of_deals (disk : Disk) (before : List Event) (name app user : String)
    (base : Option String) (networked : Bool) {log₁ log₂ : List Deal} {w₁ w₂ : World}
    (h₁ : Deals (future { disk } before).next
      (happen (future { disk } before) (.call (.addManager name app user base networked false)))
      log₁ w₁)
    (h₂ : Deals (future { disk } before).next w₁ log₂ w₂) :
    Reckoned (future { disk } before).next w₁ log₂ w₂ := by
  have hkeeps := keeps_of_addManager (accounted_future disk before) name app user base networked
  exact (h₁.keeps hkeeps).reckoned h₂

/-- A world with one manager and nothing on its disk. -/
def oneManager : World :=
  happen (future {} []) (.call (.addManager "m" "app" "user" none false false))

/-- A store is lent twice and given back once. -/
theorem reckoned_of_deals_memory :
    ∃ log w, Deals 0 oneManager log w ∧ log.length = 3 ∧ Reckoned 0 oneManager log w := by
  have hlend₁ : Deals 0 oneManager _ _ :=
    .lend "a" "m" "s" { memoryOnly := true } .nil (by decide +kernel)
  have hlend₂ := hlend₁.lend "b" "m" "s" { memoryOnly := true } (by decide +kernel)
  have hreclaim := @Deals.reclaim _ _ _ _ (.direct 1) { id := "s", options := { memoryOnly := true } }
    "m" "a" hlend₂ (by decide +kernel) (by decide +kernel) (by decide +kernel)
  exact ⟨_, _, hreclaim, rfl, reckoned_of_deals {} [] "m" "app" "user" none false .nil hreclaim⟩

end Runs

end ObjectStore.World
