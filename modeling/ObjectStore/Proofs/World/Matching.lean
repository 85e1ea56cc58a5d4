import ObjectStore.Proofs.World.Sharing

/-!
# Wrappers match loans

A guarded manager has two tables: the wrappers that it has lent out and the loans behind them. They match:
no wrapper is listed twice, each one is of an engine on loan, and an engine is on loan as often as it has
wrappers. A wrapper has the number that came next when it was lent, so that no later one is the same. And
what is on loan on disk lies in a directory that has the id of its store as name, for that is where it was
opened, and an engine never moves.

Main statements: `Matched.lends` and `Matched.returns`.
-/

namespace ObjectStore

/-- A plain name is the last one of the place that it leads to. -/
theorem Path.place_of_names {path id : String} {front : List String}
    (h : Path.names path = front ++ [id]) (hdot : id ≠ ".") (hup : id ≠ "..") :
    ∃ above, Path.place path = above ++ [id] := by
  refine ⟨front.foldl Path.next [], ?_⟩
  rw [Path.place, h, List.foldl_append, List.foldl_cons, List.foldl_nil, Path.next, if_neg hdot,
    if_neg hup]

namespace World

open ObjectStore.Action

/-- An id that passes leads to no other directory than the one it names. -/
theorem ne_up_of_checkId {id : String} (h : Manager.checkId id = .ok ()) : id ≠ ".." := by
  rintro rfl
  revert h
  decide

/-- The directory of a store has the id of the store as its name. -/
theorem place_storeDirectory {id : String} (h : Manager.checkId id = .ok ()) (app user base : String)
    (options : Options) :
    ∃ above, Path.place (Manager.storeDirectory app user base id options) = above ++ [id] := by
  obtain ⟨front, hnames⟩ := names_storeDirectory h app user base options
  exact Path.place_of_names hnames (plain_of_checkId h).2.2 (ne_up_of_checkId h)

/-! ## The invariant -/

/-- How many wrappers of an engine a manager has lent out. -/
def wraps (w : World) (ref : ManagerRef) (engine : EngineRef) : Nat :=
  (w.wrappers ref).countP fun wrapper => wrapper.2 == engine

/-- The wrappers of all managers match their loans. -/
structure Matched (w : World) : Prop where
  distinct : ∀ ref, (w.wrappers ref).Nodup
  older : ∀ {ref wrapper}, wrapper ∈ w.wrappers ref → wrapper.1 < w.next
  lent : ∀ {ref wrapper}, wrapper ∈ w.wrappers ref → w.IsLent ref wrapper.2
  counted : ∀ {ref id loan}, w.guarded? ref = some true → w.loan? ref id = some loan →
    loan.handles = w.wraps ref loan.engine
  /-- What is on loan on disk lies in a directory of its id. -/
  filed : ∀ {ref id loan e place}, w.loan? ref id = some loan → w.engines.get? loan.engine = some e →
    e.directory? = some place → ∃ above, place = above ++ [id]

/-- A manager that has something on loan is there. -/
theorem exists_guarded?_of_loan {w : World} {ref : ManagerRef} {id : String} {loan : Loan}
    (h : w.loan? ref id = some loan) : (w.guarded? ref).isSome := by
  obtain ⟨m, hm, -⟩ := Option.bind_eq_some_iff.mp h
  simp [guarded?, hm]

/-- Only a guard has wrappers. -/
theorem wrappers_of_unguarded {w : World} {ref : ManagerRef} (h : w.guarded? ref = some false) :
    w.wrappers ref = [] := by
  obtain ⟨m, hm, hguard⟩ := exists_manager_of_unguarded h
  simp [wrappers, hm, hguard]

/-- What has wrappers is guarded. -/
theorem guarded_of_mem_wrappers {w : World} {ref : ManagerRef} {wrapper : Nat × EngineRef}
    (h : wrapper ∈ w.wrappers ref) : w.guarded? ref = some true := by
  unfold wrappers at h
  unfold guarded?
  cases hm : w.managers.get? ref with
  | none => simp [hm] at h
  | some m => cases hguard : m.guard <;> simp [hm, hguard] at h ⊢

namespace Matched

variable {w w' : World} {ref : ManagerRef} {id : String} {options : Options} {handle : Handle}

/-- The books and the wrappers decide, and the engines that lie on disk. -/
theorem of_books (h : Matched w) (hbooked : Booked w) (hnext : w.next ≤ w'.next)
    (hwrappers : ∀ ref, w'.wrappers ref = w.wrappers ref)
    (hguarded : ∀ ref, (w.guarded? ref).isSome → w'.guarded? ref = w.guarded? ref)
    (hloans : ∀ ref id, w'.loan? ref id = w.loan? ref id)
    (hplaces : ∀ {r e e' place}, w.engines.get? r = some e → w'.engines.get? r = some e' →
      e'.directory? = some place → e.directory? = some place) : Matched w' := by
  constructor
  case distinct =>
    intro ref
    rw [hwrappers]
    exact h.distinct ref
  case older =>
    intro ref wrapper hmem
    rw [hwrappers] at hmem
    exact Nat.lt_of_lt_of_le (h.older hmem) hnext
  case lent =>
    intro ref wrapper hmem
    rw [hwrappers] at hmem
    obtain ⟨id, loan, hloan, hengine⟩ := h.lent hmem
    exact ⟨id, loan, (hloans ref id).trans hloan, hengine⟩
  case counted =>
    intro ref id loan hguard hloan
    rw [hloans] at hloan
    rw [hguarded ref (exists_guarded?_of_loan hloan)] at hguard
    rw [wraps, hwrappers]
    exact h.counted hguard hloan
  case filed =>
    intro ref id loan e' place hloan he' hplace
    rw [hloans] at hloan
    obtain ⟨-, e, he, -⟩ := hbooked.lent hloan
    exact h.filed hloan he (hplaces he he' hplace)

/-- Names, devices and the disk do not matter. -/
theorem of_eq (h : Matched w) (hbooked : Booked w) (hnext : w'.next = w.next)
    (hengines : w'.engines = w.engines) (hmanagers : w'.managers = w.managers) : Matched w' := by
  have hmanager (ref : ManagerRef) : w'.managers.get? ref = w.managers.get? ref := by rw [hmanagers]
  refine h.of_books hbooked (Nat.le_of_eq hnext.symm) (fun ref => wrappers_of_managers (hmanager ref))
    (fun ref _ => guarded?_of_managers (hmanager ref)) (fun ref id => ?_) ?_
  · unfold loan?
    rw [hmanager]
  · intro r e e' place he he' hplace
    rw [hengines, he] at he'
    cases he'
    exact hplace

/-! ## Calls -/

/-- A manager may be changed apart from its loans and its wrappers. -/
theorem modifyManager (h : Matched w) (hbooked : Booked w) {f : Manager → Manager}
    (hloans : ∀ m, (f m).loans = m.loans)
    (hguard : ∀ m, w.managers.get? ref = some m → (f m).guard.map Guard.wrappers =
      m.guard.map Guard.wrappers) : Matched (w.modifyManager ref f) := by
  refine h.of_books hbooked (Nat.le_of_eq (next_modifyManager w ref f).symm) (fun ref' => ?_)
    (fun ref' _ => (Aside.modifyManager hloans hguard).guarded) (steady_modifyManager hloans).loans ?_
  · rw [wrappers_modifyManager]
    split
    · rename_i heq
      rw [heq, World.wrappers]
      cases hm : w.managers.get? ref with
      | none => rfl
      | some m => simp [hguard m hm]
    · rfl
  · intro r e e' place he he' hplace
    rw [engines_modifyManager, he] at he'
    cases he'
    exact hplace

theorem setsFaults (h : Matched w) (hbooked : Booked w) (hfaults : SetsFaults w w') : Matched w' := by
  cases hfaults with
  | refl => exact h
  | set faults hm hguard =>
      refine h.modifyManager hbooked (fun _ => rfl) fun m' hm' => ?_
      rw [hm] at hm'
      cases hm'
      simp [hguard]

/-- An engine that applies a batch stays where it is. -/
theorem write (h : Matched w) (hbooked : Booked w) {r : EngineRef} {batch : Batch} {e e' : Engine}
    {disk : Disk} (he : w.engines.get? r = some e) (hwrite : e.write batch w.disk = .ok (e', disk)) :
    Matched { w with engines := w.engines.insert r e', disk } := by
  refine h.of_books hbooked (Nat.le_refl _) (fun _ => rfl) (fun _ _ => rfl) (fun _ _ => rfl) ?_
  intro r' e₁ e₂ place he₁ he₂ hplace
  rw [show ({ w with engines := w.engines.insert r e', disk } : World).engines.get? r' =
    if r' = r then some e' else w.engines.get? r' from SortedMap.get?_insert w.engines r e' r'] at he₂
  split at he₂
  · rename_i heq
    subst heq
    rw [he] at he₁
    cases he₁
    cases he₂
    rwa [(sameEngine_of_write hwrite).directory] at hplace
  · rw [he₁] at he₂
    cases he₂
    exact hplace

/-- To close an engine past its manager moves nothing and takes no wrapper back. -/
theorem closeEngine (h : Matched w) (hbooked : Booked w) (engine : EngineRef) :
    Matched (World.closeEngine w engine) := by
  obtain ⟨-, -, hmanagers, -⟩ := ways_closeEngine w engine
  have hmanager (ref : ManagerRef) :
      (World.closeEngine w engine).managers.get? ref = w.managers.get? ref := by rw [hmanagers]
  refine h.of_books hbooked (Nat.le_of_eq (next_closeEngine w engine).symm)
    (fun ref => wrappers_of_managers (hmanager ref)) (fun ref _ => guarded?_of_managers (hmanager ref))
    (fun ref id => ?_) ?_
  · unfold loan?
    rw [hmanager]
  · intro r e e' place he he' hplace
    rw [engines_closeEngine engine he] at he'
    split at he' <;> (cases he'; exact hplace)

end Matched

/-! ## Loans -/

section Loans

variable {w w' : World} {ref : ManagerRef} {id : String} {options : Options} {handle : Handle}

/-- A guarded manager lends wrappers of its own. -/
theorem LendsHandle.wrapped_of_guarded (h : LendsHandle w ref id options handle w')
    (hguard : w.guarded? ref = some true) : ∃ serial, handle = .wrapped serial ref handle.engine := by
  have haccepts := h.accepts
  cases handle with
  | direct engine =>
      rw [accepts_direct_iff, h.guarded?_eq, hguard] at haccepts
      cases haccepts
  | wrapped serial lender engine =>
      obtain ⟨rfl, -⟩ := accepts_wrapped_iff.mp haccepts
      exact ⟨serial, rfl⟩

theorem Lends.isLent_of_isLent {engine r : EngineRef} (h : Lends w ref id options engine w')
    {ref' : ManagerRef} (hlent : w.IsLent ref' r) : w'.IsLent ref' r := by
  obtain ⟨id', loan, hloan, rfl⟩ := hlent
  obtain ⟨loan', hloan', hengine⟩ := h.kept_loan hloan
  exact ⟨id', loan', hloan', hengine⟩

/-- A loan adds one wrapper of its engine, if the manager is guarded. -/
theorem LendsHandle.wraps_eq (h : LendsHandle w ref id options handle w') {ref' : ManagerRef}
    (hguard : w.guarded? ref' = some true) (engine : EngineRef) :
    w'.wraps ref' engine =
      w.wraps ref' engine + if ref' = ref ∧ handle.engine = engine then 1 else 0 := by
  unfold wraps
  rw [h.guards.2, List.countP_append]
  by_cases heq : ref' = ref
  · subst heq
    obtain ⟨serial, hwrapped⟩ := h.wrapped_of_guarded hguard
    rw [hwrapped]
    simp [Handle.wrapper?, Handle.engine, List.countP_cons]
  · simp [heq]

/-- A new engine has no wrappers yet. -/
theorem Matched.wraps_next (h : Matched w) (hbooked : Booked w) (ref : ManagerRef) :
    w.wraps ref w.next = 0 := by
  unfold wraps
  rw [List.countP_eq_zero]
  intro wrapper hmem heq
  obtain ⟨id, loan, hloan, hengine⟩ := h.lent hmem
  obtain ⟨-, e, he, -⟩ := hbooked.lent hloan
  rw [hengine, eq_of_beq heq, (hbooked.fresh w.next (Nat.le_refl _)).1] at he
  cases he

/-- After a loan there is its wrapper beside those that there were. -/
theorem LendsHandle.mem_wrappers_cases (h : LendsHandle w ref id options handle w') {ref' : ManagerRef}
    {wrapper : Nat × EngineRef} (hmem : wrapper ∈ w'.wrappers ref') :
    wrapper ∈ w.wrappers ref' ∨ ref' = ref ∧ handle.wrapper? = some wrapper := by
  rw [h.guards.2] at hmem
  rcases List.mem_append.mp hmem with hold | hnew
  · exact .inl hold
  · split at hnew
    · rename_i heq
      exact .inr ⟨heq, Option.mem_toList.mp hnew⟩
    · cases hnew

/-- The new wrapper has a number that none of the others has. -/
theorem Matched.distinct_of_lends (h : Matched w) (hlends : LendsHandle w ref id options handle w')
    (ref' : ManagerRef) : (w'.wrappers ref').Nodup := by
  rw [hlends.guards.2]
  refine (h.distinct ref').append ?_ fun wrapper hold hnew => ?_
  · split
    · cases handle.wrapper? <;> simp
    · exact List.nodup_nil
  · split at hnew
    · have hfresh := hlends.wrapper_fresh (Option.mem_toList.mp hnew)
      exact Nat.lt_irrefl _ (Nat.lt_of_lt_of_le (h.older hold) hfresh.1)
    · cases hnew

/-- A loan is counted where its wrapper is listed. -/
theorem Matched.counted_of_lends (h : Matched w) (hbooked : Booked w)
    (hlends : LendsHandle w ref id options handle w') {ref' : ManagerRef} {id' : String} {loan : Loan}
    (hguard : w'.guarded? ref' = some true) (hloan : w'.loan? ref' id' = some loan) :
    loan.handles = w'.wraps ref' loan.engine := by
  have hbooks := hlends.lends
  rw [hlends.guarded?_eq] at hguard
  rw [hlends.wraps_eq hguard]
  by_cases hentry : ref' = ref ∧ id' = id
  · obtain ⟨rfl, rfl⟩ := hentry
    rw [hbooks.loan] at hloan
    cases hloan
    rw [if_pos ⟨rfl, rfl⟩]
    cases hbooks.source with
    | again hloan' hengine =>
        rw [hloan', ← hengine, ← h.counted hguard hloan']
        rfl
    | first hnone hnext =>
        rw [hnone, hnext, h.wraps_next hbooked]
        rfl
  · -- The engine of another entry is another engine.
    have hother : ¬ (ref' = ref ∧ handle.engine = loan.engine) := by
      rintro ⟨rfl, hengine⟩
      exact hentry ((hbooked.lends hbooks).entry_eq hloan hbooks.loan hengine.symm)
    rw [if_neg hother]
    rw [hbooks.loans hentry] at hloan
    exact h.counted hguard hloan

/-- What is on loan after a loan was on loan before, or it has just been opened where its store lies. -/
theorem Matched.filed_of_lends (h : Matched w) (hbooked : Booked w)
    (hlends : LendsHandle w ref id options handle w') (hpermits : Permits w ref id options)
    {ref' : ManagerRef} {id' : String} {loan : Loan} {e : Engine} {place : List String}
    (hloan : w'.loan? ref' id' = some loan) (he : w'.engines.get? loan.engine = some e)
    (hplace : e.directory? = some place) : ∃ above, place = above ++ [id'] := by
  have hbooks := hlends.lends
  rcases hbooks.loan_cases hloan with ⟨⟨rfl, rfl⟩, hengine, -⟩ | hold
  · rw [hengine] at he
    cases hbooks.source with
    | again hloan' hengine' _ _ hengines =>
        rw [hengines, ← hengine'] at he
        exact h.filed hloan' he hplace
    | first _ _ _ hopens hengines =>
        rw [hengines, SortedMap.get?_insert, if_pos rfl] at he
        cases he
        cases hopens with
        | memory _ _ he =>
            rw [he] at hplace
            cases hplace
        | directory _ _ hopen =>
            rw [Engine.directory?_of_openDirectory hopen] at hplace
            cases hplace
            exact place_storeDirectory hpermits.name _ _ _ _
  · obtain ⟨-, e₀, he₀, -⟩ := hbooked.lent hold
    have hkept := hbooks.get?_engines hbooked.fresh he₀
    rw [he] at hkept
    cases hkept
    exact h.filed hold he₀ hplace

/-- After a loan there is a wrapper for it, and what was opened lies where its store lies. -/
theorem Matched.lends (h : Matched w) (hbooked : Booked w)
    (hlends : LendsHandle w ref id options handle w') (hpermits : Permits w ref id options) :
    Matched w' := by
  have hbooks := hlends.lends
  constructor
  case distinct => exact h.distinct_of_lends hlends
  case older =>
    intro ref' wrapper hmem
    rcases hlends.mem_wrappers_cases hmem with hold | ⟨-, hnew⟩
    · exact Nat.lt_of_lt_of_le (h.older hold) hlends.next_le
    · exact (hlends.wrapper_fresh hnew).2
  case lent =>
    intro ref' wrapper hmem
    rcases hlends.mem_wrappers_cases hmem with hold | ⟨rfl, hnew⟩
    · exact hbooks.isLent_of_isLent (h.lent hold)
    · cases handle with
      | direct engine => cases hnew
      | wrapped serial lender engine =>
          cases hnew
          exact ⟨id, _, hbooks.loan, rfl⟩
  case counted => exact fun hguard hloan => h.counted_of_lends hbooked hlends hguard hloan
  case filed =>
    exact fun hloan he hplace => h.filed_of_lends hbooked hlends hpermits hloan he hplace

theorem Matched.refused (h : Matched w) (hbooked : Booked w) (hrefused : Refused w w') : Matched w' := by
  obtain ⟨disk, -, rfl⟩ := hrefused.exists_extends
  exact h.of_eq hbooked rfl rfl rfl

end Loans

/-! ## Returns -/

section Returns

variable {w w' : World} {ref : ManagerRef} {handle : Handle} {e : Engine}

/-- What a manager is given: it takes the handles that it accepts, and refuses all others. -/
theorem exec_reclaim_eq {m : Manager} (hm : w.managers.get? ref = some m)
    (he : w.engines.get? handle.engine = some e) :
    (reclaim ref handle).exec w =
      if m.accepts ref handle then
        (reclaimEngine ref e.id handle.engine).exec (unwrapped ref handle w)
      else (.error (.storeNotFound e.id), w) := by
  unfold reclaim managerOf engineOf
  simp only [exec_bind, exec_get, hm, he, exec_pure]
  cases hguard : m.guard with
  | none => cases handle <;> simp [Manager.accepts, hguard, unwrapped, Handle.engine]
  | some guard =>
      cases handle with
      | direct engine => simp [Manager.accepts, hguard]
      | wrapped serial lender engine =>
          have hunwrapped : unwrapped ref (.wrapped serial lender engine) w =
              w.modifyManager ref fun m =>
                { m with
                  guard := some { guard with wrappers := guard.wrappers.erase (serial, engine) } } :=
            modifyManager_congr fun m' hm' => by
              rw [hm] at hm'
              cases hm'
              rw [hguard]
              rfl
          by_cases hmine : lender = ref ∧ guard.wrappers.contains (serial, engine) = true
          · rw [if_pos (by simpa [Manager.accepts, hguard] using hmine), hunwrapped]
            simp only [if_pos hmine, exec_bind, exec_modify, Handle.engine]
          · rw [if_neg (by simpa [Manager.accepts, hguard] using hmine)]
            simp only [if_neg hmine, exec_throw]

/-- A manager that is there refuses whatever it does not accept, and nothing happens. -/
theorem reclaim_of_not_accepts (hthere : (w.guarded? ref).isSome) (hnot : ¬ Accepts w ref handle)
    (he : w.engines.get? handle.engine = some e) :
    (reclaim ref handle).exec w = (.error (.storeNotFound e.id), w) := by
  rw [guarded?, Option.isSome_map] at hthere
  obtain ⟨m, hm⟩ := Option.isSome_iff_exists.mp hthere
  rw [exec_reclaim_eq hm he, if_neg fun haccept => hnot ⟨m, hm, haccept⟩]

/-- What a guarded manager accepts is an engine that it has on loan. -/
theorem Matched.loan_of_accepts (h : Matched w) (hbooked : Booked w)
    (hguard : w.guarded? ref = some true) (haccepts : Accepts w ref handle) :
    ∃ e loan, w.engines.get? handle.engine = some e ∧ w.loan? ref e.id = some loan ∧
      loan.engine = handle.engine := by
  cases handle with
  | direct engine =>
      rw [accepts_direct_iff, hguard] at haccepts
      cases haccepts
  | wrapped serial lender engine =>
      obtain ⟨-, hmem⟩ := accepts_wrapped_iff.mp haccepts
      obtain ⟨id, loan, hloan, hengine⟩ := h.lent hmem
      obtain ⟨-, e, he, rfl⟩ := hbooked.lent hloan
      rw [hengine] at he
      exact ⟨e, loan, he, hloan, hengine⟩

/-- A return takes a handle that the manager accepts, and nothing happens where there is none. -/
theorem Matched.ensures_reclaim (h : Matched w) (hbooked : Booked w) (ref : ManagerRef)
    (handle : Handle) :
    (reclaim ref handle).Ensures w
      (fun _ w' => ∃ e, w.engines.get? handle.engine = some e ∧ Accepts w ref handle ∧
        ReturnsEngine (unwrapped ref handle w) ref e.id handle.engine w')
      fun _ w' => w' = w := by
  cases hm : w.managers.get? ref with
  | none =>
      unfold Ensures reclaim managerOf
      simp only [exec_bind, exec_get, hm, exec_throw]
  | some m =>
      cases he : w.engines.get? handle.engine with
      | none =>
          unfold Ensures reclaim managerOf engineOf
          simp only [exec_bind, exec_get, hm, he, exec_pure, exec_throw]
      | some e =>
          by_cases haccepts : Accepts w ref handle
          · cases hguard : w.guarded? ref with
            | none => simp [guarded?, hm] at hguard
            | some guarded =>
                cases guarded with
                | true =>
                    obtain ⟨e', loan, he', hloan, hengine⟩ := h.loan_of_accepts hbooked hguard haccepts
                    rw [he] at he'
                    cases he'
                    exact (ensures_reclaim_accepted haccepts he hloan hengine).weaken
                      (fun _ _ hreturns => ⟨e, rfl, haccepts, hreturns⟩) fun _ _ hfalse => hfalse.elim
                | false =>
                    cases handle with
                    | wrapped serial lender engine =>
                        obtain ⟨-, hmem⟩ := accepts_wrapped_iff.mp haccepts
                        rw [wrappers_of_unguarded hguard] at hmem
                        cases hmem
                    | direct engine =>
                        unfold Ensures
                        rw [exec_reclaim_of_unguarded hguard he]
                        exact (ensures_reclaimEngine ref e.id engine w).weaken
                          (fun _ _ hreturns => ⟨e, rfl, haccepts, hreturns⟩) fun _ _ hno => hno.1
          · unfold Ensures
            rw [reclaim_of_not_accepts (by simp [guarded?, hm]) haccepts he]

/-- A return takes one wrapper of its engine off, if the manager is guarded. -/
theorem wraps_unwrapped (haccepts : Accepts w ref handle) {ref' : ManagerRef}
    (hguard : w.guarded? ref' = some true) (engine : EngineRef) :
    (unwrapped ref handle w).wraps ref' engine +
        (if ref' = ref ∧ handle.engine = engine then 1 else 0) = w.wraps ref' engine := by
  unfold wraps
  rw [(guards_unwrapped ref handle w).2]
  by_cases heq : ref' = ref
  · subst heq
    cases handle with
    | direct engine =>
        rw [accepts_direct_iff, hguard] at haccepts
        cases haccepts
    | wrapped serial lender engine' =>
        obtain ⟨-, hmem⟩ := accepts_wrapped_iff.mp haccepts
        rw [(List.perm_cons_erase hmem).countP_eq, List.countP_cons]
        simp [Handle.wrapper?, Handle.engine]
  · simp [heq]

/-- A return keeps guards on managers. -/
theorem ReturnsEngine.guarded?_eq {id : String} {engine : EngineRef}
    (h : ReturnsEngine (unwrapped ref handle w) ref id engine w') (ref' : ManagerRef) :
    w'.guarded? ref' = w.guarded? ref' := by
  rw [guarded?_eq_switches?, h.sameGuards.switches, (guards_unwrapped ref handle w).1,
    ← guarded?_eq_switches?]

/-- What is left of the wrappers was there before. -/
theorem mem_unwrapped {ref' : ManagerRef} {wrapper : Nat × EngineRef}
    (hmem : wrapper ∈ (unwrapped ref handle w).wrappers ref') : wrapper ∈ w.wrappers ref' := by
  rw [(guards_unwrapped ref handle w).2] at hmem
  split at hmem
  · cases hwrapper : handle.wrapper? with
    | none => rwa [hwrapper] at hmem
    | some taken =>
        rw [hwrapper, Option.elim_some] at hmem
        exact List.mem_of_mem_erase hmem
  · exact hmem

/-- What a manager takes back is of an engine that has as many wrappers left as loans. -/
theorem Matched.wraps_of_accepts (h : Matched w) (haccepts : Accepts w ref handle) {loan : Loan} {id : String}
    (hguard : w.guarded? ref = some true) (hloan : w.loan? ref id = some loan)
    (hengine : loan.engine = handle.engine) :
    (unwrapped ref handle w).wraps ref loan.engine + 1 = loan.handles := by
  rw [h.counted hguard hloan, ← wraps_unwrapped haccepts hguard, if_pos ⟨rfl, hengine.symm⟩]

/-- What still has a wrapper after a return is still on loan. -/
theorem Matched.lent_of_returns (h : Matched w) (haccepts : Accepts w ref handle)
    (hreturns : Returns w ref e.id handle.engine w') {ref' : ManagerRef} {wrapper : Nat × EngineRef}
    (hmem : wrapper ∈ (unwrapped ref handle w).wrappers ref') : w'.IsLent ref' wrapper.2 := by
  obtain ⟨loan, hloan, hengine, hleft⟩ := hreturns.loan
  have hold := mem_unwrapped hmem
  obtain ⟨id', loan', hloan', hengine'⟩ := h.lent hold
  by_cases hentry : ref' = ref ∧ id' = e.id
  · -- The engine has this wrapper left, and so it was on loan more than once.
    obtain ⟨rfl, rfl⟩ := hentry
    rw [hloan] at hloan'
    cases hloan'
    have hpos : 0 < (unwrapped ref' handle w).wraps ref' loan.engine :=
      List.countP_pos_iff.mpr ⟨wrapper, hmem, beq_iff_eq.mpr hengine'.symm⟩
    have hmore := h.wraps_of_accepts haccepts (guarded_of_mem_wrappers hold) hloan hengine
    rw [if_pos (by omega)] at hleft
    exact ⟨e.id, _, hleft, hengine'⟩
  · exact ⟨id', loan', (hreturns.loans hentry).trans hloan', hengine'⟩

/-- A return is counted where its wrapper is taken off. -/
theorem Matched.counted_of_returns (h : Matched w) (hbooked : Booked w) (haccepts : Accepts w ref handle)
    (hreturns : Returns w ref e.id handle.engine w') {ref' : ManagerRef} {id' : String} {loan' : Loan}
    (hguard : w.guarded? ref' = some true) (hloan' : w'.loan? ref' id' = some loan') :
    loan'.handles = (unwrapped ref handle w).wraps ref' loan'.engine := by
  obtain ⟨loan, hloan, hengine, hleft⟩ := hreturns.loan
  by_cases hentry : ref' = ref ∧ id' = e.id
  · obtain ⟨rfl, rfl⟩ := hentry
    rw [hloan'] at hleft
    split at hleft
    · cases hleft
      exact Nat.sub_eq_of_eq_add (h.wraps_of_accepts haccepts hguard hloan hengine).symm
    · cases hleft
  · have hold := (hreturns.loans hentry).symm.trans hloan'
    -- The engine of another entry is another engine.
    have hother : ¬ (ref' = ref ∧ handle.engine = loan'.engine) := by
      rintro ⟨rfl, hsame⟩
      exact hentry (hbooked.entry_eq hold hloan (hsame.symm.trans hengine.symm))
    rw [h.counted hguard hold, ← wraps_unwrapped haccepts hguard, if_neg hother, Nat.add_zero]

/-- A return moves no engine. -/
theorem Matched.filed_of_returns (h : Matched w) (hbooked : Booked w)
    (hreturns : Returns w ref e.id handle.engine w') {ref' : ManagerRef} {id' : String} {loan' : Loan}
    {e' : Engine} {place : List String} (hloan' : w'.loan? ref' id' = some loan')
    (he' : w'.engines.get? loan'.engine = some e') (hplace : e'.directory? = some place) :
    ∃ above, place = above ++ [id'] := by
  obtain ⟨old, hold, hsame⟩ := hreturns.exists_loan hloan'
  obtain ⟨-, e₀, he₀, -⟩ := hbooked.lent hold
  rw [← hsame] at he'
  refine h.filed hold he₀ ?_
  rcases hreturns.engines he₀ with hkept | ⟨-, -, hclosed⟩
  · rw [hkept] at he'
    cases he'
    exact hplace
  · rw [hclosed] at he'
    cases he'
    exact hplace

/-- What a manager takes back is one wrapper less and one loan less of the same engine. -/
theorem Matched.returns (h : Matched w) (hbooked : Booked w) (haccepts : Accepts w ref handle)
    (hreturns : ReturnsEngine (unwrapped ref handle w) ref e.id handle.engine w') : Matched w' := by
  have hbooks := (sameBooks_unwrapped ref handle w).returns hreturns.returns
  have hwrappers (ref' : ManagerRef) : w'.wrappers ref' = (unwrapped ref handle w).wrappers ref' :=
    hreturns.sameGuards.wrappers ref'
  constructor
  case distinct =>
    intro ref'
    rw [hwrappers, (guards_unwrapped ref handle w).2]
    split
    · cases handle.wrapper? with
      | none => exact h.distinct ref'
      | some wrapper => exact (h.distinct ref').erase wrapper
    · exact h.distinct ref'
  case older =>
    intro ref' wrapper hmem
    rw [hwrappers] at hmem
    rw [hreturns.next_eq, next_unwrapped]
    exact h.older (mem_unwrapped hmem)
  case lent =>
    intro ref' wrapper hmem
    rw [hwrappers] at hmem
    exact h.lent_of_returns haccepts hbooks hmem
  case counted =>
    intro ref' id' loan' hguard hloan'
    rw [hreturns.guarded?_eq] at hguard
    rw [wraps, hwrappers, ← wraps]
    exact h.counted_of_returns hbooked haccepts hbooks hguard hloan'
  case filed => exact fun hloan' he' hplace => h.filed_of_returns hbooked hbooks hloan' he' hplace

/-- A manager may be given anything. -/
theorem Matched.reclaim (h : Matched w) (hbooked : Booked w) (ref : ManagerRef) (handle : Handle) :
    Matched ((World.reclaim ref handle).exec w).2 := by
  refine Ensures.exec_snd ((h.ensures_reclaim hbooked ref handle).weaken ?_ ?_)
  · intro _ w' hreturned
    obtain ⟨e, -, haccepts, hreturns⟩ := hreturned
    exact h.returns hbooked haccepts hreturns
  · intro _ w' hsame
    rwa [hsame]

end Returns

/-! ## Managers and engines that come, and directories that go -/

section Making

variable {w : World}

/-- A manager may come that has lent nothing. -/
theorem Matched.addManager (h : Matched w) (hbooked : Booked w) {m : Manager} (hm : m.loans = ∅)
    (hguard : ∀ guard, m.guard = some guard → guard.wrappers = []) : Matched (w.addManager m).2 := by
  have hsteady := steady_addManager hbooked.fresh hm ""
  have hget (ref : ManagerRef) : (w.addManager m).2.managers.get? ref =
      if ref = w.next then some m else w.managers.get? ref :=
    SortedMap.get?_insert w.managers w.next m ref
  have hnone : w.managers.get? w.next = none := (hbooked.fresh w.next (Nat.le_refl _)).2
  refine h.of_books hbooked (Nat.le_succ _) (fun ref => ?_) (fun ref hthere => ?_) hsteady.loans ?_
  · unfold wrappers
    rw [hget]
    split
    · rename_i heq
      rw [heq, hnone]
      cases hm : m.guard with
      | none => simp [hm]
      | some guard => simp [hm, hguard guard hm]
    · rfl
  · have hne := ne_next_of_guarded? hbooked.fresh hthere
    exact guarded?_of_managers (by rw [hget, if_neg hne])
  · intro r e e' place he he' hplace
    rw [show (w.addManager m).2.engines.get? r = w.engines.get? r from rfl, he] at he'
    cases he'
    exact hplace

/-- An engine may come that nobody has. -/
theorem Matched.addEngine (h : Matched w) (hbooked : Booked w) (e : Engine) :
    Matched (w.addEngine e).2 := by
  refine h.of_books hbooked (Nat.le_succ _) (fun _ => rfl) (fun _ _ => rfl) (fun _ _ => rfl) ?_
  intro r e₁ e₂ place he₁ he₂ hplace
  have hne : r ≠ w.next := by
    rintro rfl
    rw [(hbooked.fresh w.next (Nat.le_refl _)).1] at he₁
    cases he₁
  rw [show (w.addEngine e).2.engines.get? r = if r = w.next then some e else w.engines.get? r from
    SortedMap.get?_insert w.engines w.next e r, if_neg hne, he₁] at he₂
  cases he₂
  exact hplace

/-- Engines may lose their directories. -/
theorem Matched.removeDirectory (h : Matched w) (hbooked : Booked w) (removed : List String) :
    Matched (w.removeDirectory removed) := by
  refine h.of_books hbooked (Nat.le_refl _) (fun _ => rfl) (fun _ _ => rfl) (fun _ _ => rfl) ?_
  intro r e e' place he he' hplace
  rw [show (w.removeDirectory removed).engines.get? r =
    (w.engines.get? r).map fun e => e.leave removed from SortedMap.get?_map _ _ r, he] at he'
  cases he'
  exact (Accounted.directory?_of_leave hplace).1

end Making

end World

end ObjectStore
