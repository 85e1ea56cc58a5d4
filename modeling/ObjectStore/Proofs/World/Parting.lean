import ObjectStore.Proofs.World.OneLess

/-!
# What the return of a wrapper leaves to others

Whoever has another wrapper of a manager cannot tell whether one of its wrappers has been given back: puts,
deletes, scans and requests are answered as they would have been, also where a request pushes to stores that
the same manager has to lend. Nor does it matter for the return of the other wrapper.

Main statements: `OneLess.uses` and `parts_of_mem`.
-/

namespace ObjectStore.World

open ObjectStore.Action

/-! ## Loans, step by step -/

section Equations

variable {w : World} {ref : ManagerRef} {m : Manager}

theorem exec_openStore_eq (m : Manager) (id : String) (options : Options) (w : World) :
    (openStore m id options).exec w =
      if options.encrypted then (.error (.notSupported "encrypted stores are not available"), w)
      else if options.memoryOnly then
        (.ok w.next, (w.addEngine { id, options, networked := m.networked }).2)
      else
        match m.base with
        | none => (.error (.invalidArgs "manager config has no base directory"), w)
        | some base =>
          match Engine.openDirectory (Manager.storeDirectory m.app m.user base id options) id options
            m.networked w.isDirectoryHeld w.disk with
          | (.error err, disk) => (.error err, { w with disk })
          | (.ok e, disk) => (.ok w.next, ({ w with disk }.addEngine e).2) := by
  unfold openStore
  split
  · rfl
  · split
    · rfl
    · cases m.base with
      | none => rfl
      | some base =>
          simp only [exec_bind, exec_get, openDirectory]
          rcases Engine.openDirectory _ id options m.networked w.isDirectoryHeld w.disk with
            ⟨err | e, disk⟩ <;> rfl

theorem exec_lendEngine_eq (hm : w.managers.get? ref = some m) (id : String) (options : Options) :
    (lendEngine ref id options).exec w =
      match Manager.checkId id with
      | .error err => (.error err, w)
      | .ok () =>
        match w.loan? ref id with
        | some loan =>
          match w.engines.get? loan.engine with
          | none => (.error .closed, w)
          | some e =>
            if e.options.sameLayout options then
              (.ok loan.engine, w.modifyManager ref fun m =>
                { m with loans := m.loans.insert id { loan with handles := loan.handles + 1 } })
            else (.error (.invalidArgs s!"store {id} is already open with different options"), w)
        | none =>
          match (openStore m id options).exec w with
          | (.error err, w') => (.error err, w')
          | (.ok engine, w') => (.ok engine, w'.modifyManager ref fun m =>
              { m with loans := m.loans.insert id { engine, handles := 1 } }) := by
  have hloan : w.loan? ref id = m.loans.get? id := by simp [loan?, hm]
  unfold lendEngine managerOf engineOf
  simp only [exec_bind, exec_get, hm, exec_pure, exec_answer, hloan]
  cases Manager.checkId id with
  | error err => rfl
  | ok _ =>
      cases m.loans.get? id with
      | some loan =>
          simp only [Handle.engine, exec_bind, exec_get]
          cases w.engines.get? loan.engine with
          | none => rfl
          | some e =>
              cases hlayout : e.options.sameLayout options <;>
                simp only [exec_pure, hlayout, Bool.false_eq_true, if_false, if_true] <;> rfl
      | none =>
          simp only [exec_bind]
          rcases (openStore m id options).exec w with ⟨err | engine, w'⟩ <;> rfl

theorem exec_lend_eq (hm : w.managers.get? ref = some m) (id : String) (options : Options) :
    (lend ref id options).exec w =
      match (lendEngine ref id options).exec w with
      | (.error err, w') => (.error err, w')
      | (.ok engine, w') =>
        if m.guard.isSome then (.ok (wrap ref engine w').1, (wrap ref engine w').2)
        else (.ok (.direct engine), w') := by
  unfold lend managerOf
  simp only [exec_bind, exec_get, hm, exec_pure]
  rcases (lendEngine ref id options).exec w with ⟨err | engine, w'⟩
  · rfl
  · cases m.guard <;> rfl

theorem exec_reclaimEngine_eq (hm : w.managers.get? ref = some m) (id : String) (engine : EngineRef) :
    (reclaimEngine ref id engine).exec w =
      match w.loan? ref id with
      | none => (.error (.storeNotFound id), w)
      | some loan =>
        if loan.engine = engine then
          if 1 < loan.handles then
            (.ok (), w.modifyManager ref fun m =>
              { m with loans := m.loans.insert id { loan with handles := loan.handles - 1 } })
          else
            (.ok (), closeEngine (w.modifyManager ref fun m => { m with loans := m.loans.erase id })
              engine)
        else (.error (.storeNotFound id), w) := by
  have hloan : w.loan? ref id = m.loans.get? id := by simp [loan?, hm]
  unfold reclaimEngine managerOf
  simp only [exec_bind, exec_get, hm, exec_pure, hloan]
  cases m.loans.get? id with
  | none => rfl
  | some loan =>
      simp only
      split
      · split <;> rfl
      · rfl

theorem exec_deliver_eq (id : String) (options : Options) (es : List Entry) (ref : ManagerRef) (w : World) :
    (deliver id options es ref).exec w =
      match (lend ref id options).exec w with
      | (.error err, w₁) => (.error err, w₁)
      | (.ok handle, w₁) =>
        match (put handle es).exec w₁ with
        | (written, w₂) =>
          match (reclaim ref handle).exec w₂ with
          | (released, w₃) => (written.bind fun _ => released, w₃) := by
  unfold deliver
  rw [exec_bind]
  rcases (lend ref id options).exec w with ⟨err | handle, w₁⟩
  · rfl
  · rcases hput : (put handle es).exec w₁ with ⟨written, w₂⟩
    rcases hreclaim : (reclaim ref handle).exec w₂ with ⟨released, w₃⟩
    simp only [exec_bind, exec_always, run_outcome, exec_answer, hput, hreclaim]
    cases written <;> rfl

end Equations

/-! ## The same answers -/

/-- The same answer in both worlds. What they have less is the same after an error, and after a success
there may be another number of loans left of it. -/
inductive SameAnswer (ref : ManagerRef) (id : String) (wrapper : Nat × EngineRef) (left left' : Nat)
    {ε α : Type} : Except ε α × World → Except ε α × World → Prop where
  | ok {v : α} {w w' : World} : OneLess ref id wrapper left' w w' →
      SameAnswer ref id wrapper left left' (.ok v, w) (.ok v, w')
  | error {err : ε} {w w' : World} : OneLess ref id wrapper left w w' →
      SameAnswer ref id wrapper left left' (.error err, w) (.error err, w')

theorem SameAnswer.ok_of_eq {ref : ManagerRef} {id : String} {wrapper : Nat × EngineRef}
    {left left' : Nat} {ε α : Type} {v v' : α} {w w' : World} (hv : v' = v)
    (h : OneLess ref id wrapper left' w w') :
    SameAnswer (ε := ε) ref id wrapper left left' (.ok v, w) (.ok v', w') := by
  subst hv
  exact .ok h

namespace OneLess

variable {ref : ManagerRef} {id : String} {wrapper : Nat × EngineRef} {left : Nat} {w w' : World}
  {ref' : ManagerRef} {id' : String}

/-- The managers of the same reference have the same owner and directory, and both a guard or none. -/
theorem exists_manager (h : OneLess ref id wrapper left w w') {m : Manager}
    (hm : w.managers.get? ref' = some m) :
    ∃ m', w'.managers.get? ref' = some m' ∧ m'.app = m.app ∧ m'.user = m.user ∧ m'.base = m.base ∧
      m'.networked = m.networked ∧ m'.guard.isSome = m.guard.isSome := by
  by_cases heq : ref' = ref
  · subst heq
    obtain ⟨m₁, m', hm₁, hm', hless⟩ := h.manager
    rw [hm] at hm₁
    cases hm₁
    obtain ⟨guard, hguard, -, hguard'⟩ := hless.guard
    exact ⟨m', hm', hless.app, hless.user, hless.base, hless.networked, by rw [hguard, hguard']; rfl⟩
  · exact ⟨m, by rw [h.managers ref' heq, hm], rfl, rfl, rfl, rfl, rfl⟩

theorem managers_eq_none (h : OneLess ref id wrapper left w w')
    (hm : w.managers.get? ref' = none) : w'.managers.get? ref' = none := by
  have hne : ref' ≠ ref := by
    rintro rfl
    obtain ⟨m, m', hm', -⟩ := h.manager
    rw [hm] at hm'
    cases hm'
  rw [h.managers ref' hne, hm]

/-- A store of another id is opened in the same way, and also one of the same id if it is on loan. -/
theorem openStore (h : OneLess ref id wrapper left w w') (hfresh : Fresh w) {m m' : Manager}
    (happ : m'.app = m.app) (huser : m'.user = m.user) (hbase : m'.base = m.base)
    (hnetworked : m'.networked = m.networked) (hname : Manager.checkId id' = .ok ())
    (hid : id' ≠ id ∨ 0 < left) (options : Options) :
    SameAnswer ref id wrapper left left ((World.openStore m id' options).exec w)
      ((World.openStore m' id' options).exec w') := by
  rw [exec_openStore_eq, exec_openStore_eq, happ, huser, hbase, hnetworked, h.disk]
  split
  · exact .error h
  · split
    · exact .ok_of_eq h.next (h.addEngine hfresh _)
    · cases m.base with
      | none => exact .error h
      | some base =>
          -- The directory of the store has its id as name, so that nobody lets go of it here.
          have hheld : w'.isDirectoryHeld (Path.place (Manager.storeDirectory m.app m.user base id' options))
              = w.isDirectoryHeld (Path.place (Manager.storeDirectory m.app m.user base id' options)) := by
            refine h.isDirectoryHeld_eq (hid.imp_left fun hne above habove => hne ?_)
            obtain ⟨above', hplace⟩ := place_storeDirectory hname m.app m.user base options
            rw [hplace] at habove
            exact List.singleton_injective (List.append_inj' habove rfl).2
          simp only
          rw [Engine.openDirectory_congr hheld]
          rcases Engine.openDirectory _ id' options m.networked w.isDirectoryHeld w.disk with
            ⟨err | e, disk⟩
          · exact .error (h.of_disk disk)
          · exact .ok_of_eq h.next ((h.of_disk disk).addEngine hfresh e)

/-- The engine of another entry is another engine. -/
theorem engine_ne (h : OneLess ref id wrapper left w w') (hbooked : Booked w) {loan : Loan}
    (hloan : w.loan? ref' id' = some loan) (hne : ¬ (ref' = ref ∧ id' = id)) :
    loan.engine ≠ wrapper.2 := fun heq => hne (hbooked.entry_eq hloan h.loan? heq)

theorem lendEngine (h : OneLess ref id wrapper left w w') (hbooked : Booked w)
    (hid : id' ≠ id ∨ 0 < left) (ref' : ManagerRef) (options : Options) :
    SameAnswer ref id wrapper left (if ref' = ref ∧ id' = id then left + 1 else left)
      ((World.lendEngine ref' id' options).exec w) ((World.lendEngine ref' id' options).exec w') := by
  cases hm : w.managers.get? ref' with
  | none =>
      have hm' := h.managers_eq_none hm
      unfold World.lendEngine managerOf
      simp only [exec_bind, exec_get, hm, hm', exec_throw]
      exact .error h
  | some m =>
      obtain ⟨m', hm', happ, huser, hbase, hnetworked, -⟩ := h.exists_manager hm
      rw [exec_lendEngine_eq hm, exec_lendEngine_eq hm']
      cases hname : Manager.checkId id' with
      | error err => exact .error h
      | ok _ =>
          by_cases hentry : ref' = ref ∧ id' = id
          · -- The store itself is lent once more.
            obtain ⟨rfl, rfl⟩ := hentry
            have hleft : 0 < left := hid.resolve_left fun hne => hne rfl
            obtain ⟨e, he, -, -, he'⟩ := h.engine
            rw [if_neg (Nat.ne_of_gt hleft)] at he'
            simp only [h.loan?, h.loan?_left, if_neg (Nat.ne_of_gt hleft), he, he', and_self, if_true]
            split
            · refine .ok (h.of_modifyManager ref' (fun _ m m' hless => hless.setEntry (Nat.succ_pos _))
                (fun hne => absurd rfl hne) ?_)
              omega
            · exact .error h
          · rw [h.loan?_eq hentry, if_neg hentry]
            -- A change to the loans of this entry is none to the one that is less.
            have hset {w₁ w₁' : World} (h₁ : OneLess ref id wrapper left w₁ w₁') (loan : Loan) :
                OneLess ref id wrapper left
                  (w₁.modifyManager ref' fun m => { m with loans := m.loans.insert id' loan })
                  (w₁'.modifyManager ref' fun m => { m with loans := m.loans.insert id' loan }) :=
              h₁.modifyManager ref' fun heq m m' hless =>
                hless.insertLoan (fun hid' => hentry ⟨heq, hid'⟩) loan
            cases hloan : w.loan? ref' id' with
            | some loan =>
                simp only [h.get?_engines (.inl (h.engine_ne hbooked hloan hentry))]
                cases w.engines.get? loan.engine with
                | none => exact .error h
                | some e =>
                    simp only
                    split
                    · exact .ok (hset h _)
                    · exact .error h
            | none =>
                have hopen := h.openStore hbooked.fresh happ huser hbase hnetworked hname hid options
                simp only
                generalize (World.openStore m id' options).exec w = opened at hopen
                generalize (World.openStore m' id' options).exec w' = opened' at hopen
                cases hopen with
                | ok h₁ => exact .ok (hset h₁ _)
                | error h₁ => exact .error h₁

/-- One wrapper more of whatever manager. -/
theorem wrap (h : OneLess ref id wrapper left w w') (ref' : ManagerRef) (engine : EngineRef) :
    (World.wrap ref' engine w').1 = (World.wrap ref' engine w).1 ∧
      OneLess ref id wrapper left (World.wrap ref' engine w).2 (World.wrap ref' engine w').2 := by
  have hnext : OneLess ref id wrapper left { w with next := w.next + 1 }
      { w' with next := w'.next + 1 } :=
    ⟨congrArg Nat.succ h.next, h.disk, ⟨h.names.depots, h.names.managerNames, h.names.handleNames⟩,
      h.devices, h.manager, h.managers, h.engine, h.engines⟩
  unfold World.wrap
  rw [h.next] at hnext ⊢
  refine ⟨rfl, hnext.modifyManager ref' fun _ m m' hless => hless.mapGuard (fun guard hmem => ?_) ?_⟩
  · exact List.mem_append_left _ hmem
  · intro guard hmem
    simp only [List.erase_append_left _ hmem]

theorem lend (h : OneLess ref id wrapper left w w') (hbooked : Booked w)
    (hid : id' ≠ id ∨ 0 < left) (ref' : ManagerRef) (options : Options) :
    SameAnswer ref id wrapper left (if ref' = ref ∧ id' = id then left + 1 else left)
      ((World.lend ref' id' options).exec w) ((World.lend ref' id' options).exec w') := by
  cases hm : w.managers.get? ref' with
  | none =>
      have hm' := h.managers_eq_none hm
      unfold World.lend managerOf
      simp only [exec_bind, exec_get, hm, hm', exec_throw]
      exact .error h
  | some m =>
      obtain ⟨m', hm', -, -, -, -, hguard⟩ := h.exists_manager hm
      have hlend := h.lendEngine hbooked hid ref' options
      rw [exec_lend_eq hm, exec_lend_eq hm', hguard]
      generalize (if ref' = ref ∧ id' = id then left + 1 else left) = left' at hlend ⊢
      generalize (World.lendEngine ref' id' options).exec w = lent at hlend
      generalize (World.lendEngine ref' id' options).exec w' = lent' at hlend
      cases hlend with
      | error h₁ => exact .error h₁
      | ok h₁ =>
          simp only
          split
          · obtain ⟨hhandle, h₂⟩ := h₁.wrap ref' _
            rw [hhandle]
            exact .ok h₂
          · exact .ok h₁

/-! ### Calls through handles -/

theorem counted (h : OneLess ref id wrapper left w w') (handle : Handle) (call : EngineCall) :
    OneLess ref id wrapper left (World.counted handle call w) (World.counted handle call w') := by
  cases handle with
  | direct engine => exact h
  | wrapped serial lender engine =>
      exact h.modifyManager lender fun _ m m' hless => hless.mapGuard (fun _ hmem => hmem) fun _ _ => rfl

section Calls

variable (h : OneLess ref id wrapper left w w') {handle : Handle}
  (hhandle : handle.engine ≠ wrapper.2 ∨ 0 < left)

include h hhandle

/-- A batch is refused for the same reason, or applied in the same way. -/
theorem applies (call : EngineCall) (batch : Batch) :
    refusal? handle call batch w' = refusal? handle call batch w ∧
      OneLess ref id wrapper left (applied handle batch w) (applied handle batch w') := by
  constructor
  · simp only [refusal?, h.blocks_eq, h.get?_engines hhandle, h.disk]
  · unfold applied
    rw [h.get?_engines hhandle, h.disk]
    cases he : w.engines.get? handle.engine with
    | none => exact h
    | some e =>
        simp only
        cases hwrite : e.write batch w.disk with
        | error err => exact h
        | ok written =>
            have hsame := sameEngine_of_write hwrite
            exact (h.setEngine hhandle he hsame.id hsame.directory).of_disk written.2

theorem put (es : List Entry) :
    SameAnswer ref id wrapper left left ((World.put handle es).exec w)
      ((World.put handle es).exec w') := by
  rw [exec_put_eq, exec_put_eq, (h.applies hhandle .put (.put es)).1]
  have hcounted := h.counted handle .put
  split
  · exact .error hcounted
  · exact .ok (hcounted.applies hhandle .put (.put es)).2

theorem delete (keys : List Bytes) :
    SameAnswer ref id wrapper left left ((World.delete handle keys).exec w)
      ((World.delete handle keys).exec w') := by
  rw [exec_delete_eq, exec_delete_eq, (h.applies hhandle (.delete keys) (.delete keys)).1]
  have hcounted := h.counted handle (.delete keys)
  split
  · exact .error hcounted
  · exact .ok (hcounted.applies hhandle (.delete keys) (.delete keys)).2

theorem scan (front : Bytes) :
    SameAnswer ref id wrapper left left ((World.scan handle front).exec w)
      ((World.scan handle front).exec w') := by
  have hrefusal : scanRefusal? handle w' = scanRefusal? handle w := by
    simp only [scanRefusal?, h.blocks_eq, h.get?_engines hhandle]
  have hcontent : content handle w' = content handle w := by
    simp only [content, h.get?_engines hhandle]
  rw [exec_scan_eq, exec_scan_eq, hrefusal, hcontent]
  have hcounted := h.counted handle .scan
  cases scanRefusal? handle w with
  | some err => exact .error hcounted
  | none => exact .ok hcounted

end Calls

/-! ### Returns -/

theorem closeEngine (h : OneLess ref id wrapper left w w') {r : EngineRef} (hr : r ≠ wrapper.2) :
    OneLess ref id wrapper left (World.closeEngine w r) (World.closeEngine w' r) := by
  unfold World.closeEngine
  rw [h.get?_engines (.inl hr)]
  cases he : w.engines.get? r with
  | none => exact h
  | some e => exact h.setEngine (.inl hr) he rfl rfl

/-- Another wrapper is taken off the list. -/
theorem unwrapped (h : OneLess ref id wrapper left w w') (ref' : ManagerRef) {handle : Handle}
    (hother : handle.wrapper? ≠ some wrapper) :
    OneLess ref id wrapper left (World.unwrapped ref' handle w) (World.unwrapped ref' handle w') := by
  cases handle with
  | direct engine => exact h
  | wrapped serial lender engine =>
      have hne : wrapper ≠ (serial, engine) := fun heq => hother (congrArg some heq.symm)
      refine h.modifyManager ref' fun _ m m' hless => hless.mapGuard (fun guard hmem => ?_) ?_
      · exact (List.mem_erase_of_ne hne).mpr hmem
      · intro guard _
        simp only [List.erase_comm wrapper (serial, engine)]

/-- Where this is not the last loan that one of the worlds has left, both give it back. -/
theorem reclaimEngine (h : OneLess ref id wrapper left w w') (hbooked : Booked w) {loan : Loan}
    (hloan : w.loan? ref' id' = some loan) (hentry : ref' = ref ∧ id' = id → 1 < left) :
    ∃ w₁ w₁', (World.reclaimEngine ref' id' loan.engine).exec w = (.ok (), w₁) ∧
      (World.reclaimEngine ref' id' loan.engine).exec w' = (.ok (), w₁') ∧
      OneLess ref id wrapper (if ref' = ref ∧ id' = id then left - 1 else left) w₁ w₁' := by
  obtain ⟨m, hm, -⟩ := Option.bind_eq_some_iff.mp hloan
  obtain ⟨m', hm', -⟩ := h.exists_manager hm
  rw [exec_reclaimEngine_eq hm, exec_reclaimEngine_eq hm']
  by_cases hself : ref' = ref ∧ id' = id
  · -- Of the store itself there are loans left in both worlds.
    have hleft := hentry hself
    obtain ⟨rfl, rfl⟩ := hself
    rw [h.loan?] at hloan
    cases hloan
    have hzero : left ≠ 0 := Nat.ne_of_gt (Nat.lt_trans Nat.zero_lt_one hleft)
    have hmore : 1 < left + 1 := Nat.lt_succ_of_lt hleft
    simp only [h.loan?, h.loan?_left, if_neg hzero, hleft, hmore, and_self, if_true, Nat.add_sub_cancel]
    refine ⟨_, _, rfl, rfl, ?_⟩
    refine h.of_modifyManager ref' (fun _ m m' hless => ?_) (fun hne => absurd rfl hne) ?_
    · have hset := hless.setEntry (Nat.sub_pos_of_lt hleft)
      rwa [Nat.sub_add_cancel (Nat.le_of_lt hleft)] at hset
    · omega
  · rw [h.loan?_eq hself, hloan, if_neg hself]
    simp only [if_true]
    split
    · refine ⟨_, _, rfl, rfl, h.modifyManager ref' fun heq m m' hless => ?_⟩
      exact hless.insertLoan (fun hid => hself ⟨heq, hid⟩) _
    · have herased : OneLess ref id wrapper left
          (w.modifyManager ref' fun m => { m with loans := m.loans.erase id' })
          (w'.modifyManager ref' fun m => { m with loans := m.loans.erase id' }) :=
        h.modifyManager ref' fun heq m m' hless => hless.eraseLoan fun hid => hself ⟨heq, hid⟩
      exact ⟨_, _, rfl, rfl, herased.closeEngine (h.engine_ne hbooked hloan hself)⟩

/-- Another wrapper is accepted as before. -/
theorem accepts_iff (h : OneLess ref id wrapper left w w') {handle : Handle}
    (hother : handle.wrapper? ≠ some wrapper) : Accepts w' ref' handle ↔ Accepts w ref' handle := by
  cases handle with
  | direct engine => rw [accepts_direct_iff, accepts_direct_iff, h.guarded?_eq]
  | wrapped serial lender engine =>
      have hne : ¬ (ref' = ref ∧ (serial, engine) = wrapper) := fun heq => hother (congrArg some heq.2)
      rw [accepts_wrapped_iff, accepts_wrapped_iff, h.mem_wrappers hne]

/-- What a manager has lent it takes back in both worlds. -/
theorem reclaim (h : OneLess ref id wrapper left w w') (hbooked : Booked w) {handle : Handle}
    (hother : handle.wrapper? ≠ some wrapper) (haccepts : Accepts w ref' handle) {e : Engine} {loan : Loan}
    (he : w.engines.get? handle.engine = some e) (hloan : w.loan? ref' e.id = some loan)
    (hengine : loan.engine = handle.engine) (hentry : ref' = ref ∧ e.id = id → 1 < left) :
    ∃ w₁ w₁', (World.reclaim ref' handle).exec w = (.ok (), w₁) ∧
      (World.reclaim ref' handle).exec w' = (.ok (), w₁') ∧
      OneLess ref id wrapper (if ref' = ref ∧ e.id = id then left - 1 else left) w₁ w₁' := by
  have hhandle : handle.engine ≠ wrapper.2 ∨ 0 < left := by
    by_cases hself : ref' = ref ∧ e.id = id
    · exact .inr (Nat.lt_trans Nat.zero_lt_one (hentry hself))
    · exact .inl (hengine ▸ h.engine_ne hbooked hloan hself)
  obtain ⟨m', hm', haccept'⟩ := (h.accepts_iff hother).mpr haccepts
  obtain ⟨m, hm, haccept⟩ := haccepts
  have he' : w'.engines.get? handle.engine = some e := (h.get?_engines hhandle).trans he
  have hbooks := sameBooks_unwrapped ref' handle w
  rw [exec_reclaim_eq hm he, exec_reclaim_eq hm' he', if_pos haccept, if_pos haccept', ← hengine]
  exact (h.unwrapped ref' hother).reclaimEngine (hbooked.steady hbooks.steady)
    ((hbooks.loans ref' e.id).trans hloan) hentry

/-! ### Pushes -/

/-- The wrapper is one of those that the manager has lent out. -/
theorem mem_wrapper (h : OneLess ref id wrapper left w w') : wrapper ∈ w.wrappers ref := by
  obtain ⟨m, m', hm, -, hless⟩ := h.manager
  obtain ⟨guard, hguard, hmem, -⟩ := hless.guard
  simpa [wrappers, hm, hguard] using hmem

/-- What was lent in both worlds goes back in both, whatever was done with it. -/
theorem reclaim_lent {w₀ w₁ : World} {options : Options} {handle : Handle}
    (h : OneLess ref id wrapper left w w') (horderly : Orderly w) (horderly₀ : Orderly w₀)
    (hlends : LendsHandle w₀ ref' id' options handle w₁) (haside : Aside ref' w₁ w)
    (hold : wrapper ∈ w₀.wrappers ref) (hentry : ref' = ref ∧ id' = id → 1 < left) :
    ∃ w₂ w₂', (World.reclaim ref' handle).exec w = (.ok (), w₂) ∧
      (World.reclaim ref' handle).exec w' = (.ok (), w₂') ∧
      OneLess ref id wrapper (if ref' = ref ∧ id' = id then left - 1 else left) w₂ w₂' := by
  have hbooks := hlends.lends
  obtain ⟨e₁, he₁, rfl, -⟩ := horderly₀.accounted.booked.engine_of_lends hbooks
  obtain ⟨e, he, hname, -⟩ := haside.engines he₁
  have hloan : w.loan? ref' e.id = some
      { engine := handle.engine, handles := (w₀.loan? ref' e₁.id).elim 0 Loan.handles + 1 } := by
    rw [hname, haside.loans]
    exact hbooks.loan
  -- The wrapper was there before the loan, and so it is not the one that was lent.
  have hother : handle.wrapper? ≠ some wrapper := fun hsame =>
    Nat.lt_irrefl _ (Nat.lt_of_lt_of_le (horderly₀.matched.older hold) (hlends.wrapper_fresh hsame).1)
  rw [← hname] at hentry ⊢
  exact h.reclaim horderly.accounted.booked hother ((haside.accepts_iff handle).mpr hlends.accepts) he
    hloan rfl hentry

/-- A delivery has the same answer, to whomever it goes. -/
theorem deliver (h : OneLess ref id wrapper left w w') (horderly : Orderly w)
    (hid : id' ≠ id ∨ 0 < left) (options : Options) (es : List Entry) (ref' : ManagerRef) :
    SameAnswer ref id wrapper left left ((World.deliver id' options es ref').exec w)
      ((World.deliver id' options es ref').exec w') := by
  have hspec := (ensures_lend_or_denies ref' id' options w).and
    (ensures_lend_orderly horderly ref' id' options)
  have hlend := h.lend horderly.accounted.booked hid ref' options
  rw [exec_deliver_eq, exec_deliver_eq]
  unfold Ensures at hspec
  generalize hmore : (if ref' = ref ∧ id' = id then left + 1 else left) = more at hlend
  generalize (World.lend ref' id' options).exec w = lent at hlend hspec
  generalize (World.lend ref' id' options).exec w' = lent' at hlend
  cases hlend with
  | error h₁ => exact .error h₁
  | @ok handle w₁ w₁' h₁ =>
      obtain ⟨⟨hlends, -⟩, horderly₁, -⟩ := hspec
      have hhandle : handle.engine ≠ wrapper.2 ∨ 0 < more := by
        by_cases hself : ref' = ref ∧ id' = id
        · rw [← hmore, if_pos hself]
          exact .inr (Nat.succ_pos _)
        · exact .inl (h₁.engine_ne horderly₁.accounted.booked hlends.lends.loan hself)
      have hentry : ref' = ref ∧ id' = id → 1 < more := by
        intro hself
        rw [← hmore, if_pos hself]
        exact Nat.succ_lt_succ (hid.resolve_left fun hne => hne hself.2)
      have hback : (if ref' = ref ∧ id' = id then more - 1 else more) = left := by
        rw [← hmore]
        split <;> rfl
      -- The put leaves the loan and the wrapper there.
      have haside := (keptByCalls_aside ref' w₁).put (.refl ref' w₁) handle es
      have horderly₂ := keptByCalls_orderly.put horderly₁ handle es
      have hput := h₁.put hhandle es
      simp only
      generalize (World.put handle es).exec w₁ = put at haside horderly₂ hput
      generalize (World.put handle es).exec w₁' = put' at hput
      cases hput with
      | ok h₂ =>
          obtain ⟨w₃, w₃', hreclaim, hreclaim', h₃⟩ :=
            h₂.reclaim_lent horderly₂ horderly hlends haside h.mem_wrapper hentry
          rw [hreclaim, hreclaim']
          rw [hback] at h₃
          exact .ok h₃
      | error h₂ =>
          obtain ⟨w₃, w₃', hreclaim, hreclaim', h₃⟩ :=
            h₂.reclaim_lent horderly₂ horderly hlends haside h.mem_wrapper hentry
          rw [hreclaim, hreclaim']
          rw [hback] at h₃
          exact .error h₃

/-- A push has the same outcome. -/
theorem pushAll (h : OneLess ref id wrapper left w w') (horderly : Orderly w)
    (hid : id' ≠ id ∨ 0 < left) (networked : Bool) (options : Options) (es : List Entry)
    (devices : List String) (outcome : SyncOutcome) :
    ((World.pushAll networked id' options es devices outcome).run w').1 =
        ((World.pushAll networked id' options es devices outcome).run w).1 ∧
      OneLess ref id wrapper left ((World.pushAll networked id' options es devices outcome).run w).2
        ((World.pushAll networked id' options es devices outcome).run w').2 := by
  induction devices generalizing w w' outcome with
  | nil => exact ⟨rfl, h⟩
  | cons device devices ih =>
      have hresolve : w'.resolve device = w.resolve device := by
        have hheld : w'.isManagerHeld = w.isManagerHeld := funext h.names.isManagerHeld
        unfold World.resolve
        rw [h.devices, hheld]
      rw [World.pushAll, StateT.run_bind, StateT.run_bind, run_pushTo, run_pushTo, hresolve]
      split
      · exact ih h horderly _
      · rename_i ref' _
        have hdeliver := h.deliver horderly hid options es ref'
        have horderly' := orderly_deliver horderly id' options es ref'
        generalize (World.deliver id' options es ref').exec w = delivered at hdeliver horderly'
        generalize (World.deliver id' options es ref').exec w' = delivered' at hdeliver
        cases hdeliver with
        | ok h₁ => exact ih h₁ horderly' _
        | error h₁ => exact ih h₁ horderly' _

/-- A request through a handle of another store has the same answer, and also one of the same store as long
as that is on loan. -/
theorem sync (h : OneLess ref id wrapper left w w') (horderly : Orderly w) {handle : Handle}
    (hhandle : handle.engine ≠ wrapper.2 ∨ 0 < left)
    (hid : ∀ e, w.engines.get? handle.engine = some e → e.id ≠ id ∨ 0 < left) (devices : List String)
    (mode : SyncMode) :
    SameAnswer ref id wrapper left left ((World.sync handle devices mode).exec w)
      ((World.sync handle devices mode).exec w') := by
  have hrefusal : syncRefusal? handle devices mode w' = syncRefusal? handle devices mode w := by
    simp only [syncRefusal?, h.blocks_eq, h.get?_engines hhandle]
  have hcounted := h.counted handle .sync
  have horderly' := keptByCalls_orderly.setsFaults horderly (setsFaults_counted handle .sync w)
  rcases exec_sync_cases handle devices mode w with
    ⟨err, herr, hexec⟩ | ⟨hnone, e, outcome, w₁, he, hpush, hexec⟩
  · rcases exec_sync_cases handle devices mode w' with
      ⟨err', herr', hexec'⟩ | ⟨hnone', -⟩
    · rw [hrefusal, herr] at herr'
      cases herr'
      rw [hexec, hexec']
      exact .error hcounted
    · rw [hrefusal, herr] at hnone'
      cases hnone'
  · rcases exec_sync_cases handle devices mode w' with
      ⟨err', herr', -⟩ | ⟨-, e', outcome', w₁', he', hpush', hexec'⟩
    · rw [hrefusal, hnone] at herr'
      cases herr'
    · rw [h.get?_engines hhandle, he] at he'
      cases he'
      have hpushed := hcounted.pushAll horderly' (hid e he) e.networked e.options (e.table.scan [])
        devices ∅
      rw [hpush, hpush'] at hpushed
      obtain ⟨rfl, h₁⟩ := hpushed
      rw [hexec, hexec']
      exact .ok h₁

end OneLess

/-! ## Uses -/

/-- What is done through a handle. -/
inductive Use where
  | put (entries : List Entry)
  | delete (keys : List Bytes)
  | scan (front : Bytes)
  | sync (devices : List String) (mode : SyncMode)

/-- What comes back. -/
inductive Reply where
  | done (answer : Except StorageError Unit)
  | entries (answer : Except StorageError (List Entry))
  | outcome (answer : Except StorageError SyncOutcome)

/-- The reply to a use of a handle, and what it leaves behind. -/
def use (handle : Handle) (w : World) : Use → Reply × World
  | .put es => let r := (put handle es).exec w; (.done r.1, r.2)
  | .delete keys => let r := (delete handle keys).exec w; (.done r.1, r.2)
  | .scan front => let r := (scan handle front).exec w; (.entries r.1, r.2)
  | .sync devices mode => let r := (sync handle devices mode).exec w; (.outcome r.1, r.2)

/-- The replies to uses of handles, one after the other. -/
def uses : List (Handle × Use) → World → List Reply × World
  | [], w => ([], w)
  | (handle, what) :: rest, w =>
    let r := use handle w what
    let rs := uses rest r.2
    (r.1 :: rs.1, rs.2)

/-- The wrappers that a manager has lent out, as handles. -/
def handedOut (w : World) (ref : ManagerRef) : List Handle :=
  (w.wrappers ref).map fun wrapper => .wrapped wrapper.1 ref wrapper.2

section Uses

variable {ref : ManagerRef} {w w' : World} {handle : Handle}

theorem mem_handedOut_iff {serial : Nat} {lender : ManagerRef} {engine : EngineRef} :
    .wrapped serial lender engine ∈ w.handedOut ref ↔
      lender = ref ∧ (serial, engine) ∈ w.wrappers ref := by
  unfold handedOut
  rw [List.mem_map]
  constructor
  · rintro ⟨wrapper, hmem, heq⟩
    cases heq
    exact ⟨rfl, hmem⟩
  · rintro ⟨rfl, hmem⟩
    exact ⟨_, hmem, rfl⟩

theorem exists_wrapper_of_mem (h : handle ∈ w.handedOut ref) :
    ∃ wrapper, handle = .wrapped wrapper.1 ref wrapper.2 ∧ wrapper ∈ w.wrappers ref := by
  obtain ⟨wrapper, hmem, heq⟩ := List.mem_map.mp h
  exact ⟨wrapper, heq.symm, hmem⟩

/-- What a guarded manager accepts are the wrappers that it has lent out. -/
theorem accepts_iff_mem_handedOut (hguard : w.guarded? ref = some true) :
    Accepts w ref handle ↔ handle ∈ w.handedOut ref := by
  cases handle with
  | direct engine => simp [accepts_direct_iff, hguard, handedOut]
  | wrapped serial lender engine => rw [accepts_wrapped_iff, mem_handedOut_iff]

theorem Aside.mem_handedOut (h : Aside ref w w') : handle ∈ w'.handedOut ref ↔ handle ∈ w.handedOut ref := by
  simp only [handedOut, List.mem_map, h.wrappers]

theorem orderly_use (h : Orderly w) (handle : Handle) (what : Use) : Orderly (use handle w what).2 := by
  cases what with
  | put es => exact keptByCalls_orderly.put h handle es
  | delete keys => exact keptByCalls_orderly.delete h handle keys
  | scan front => exact keptByCalls_orderly.scan h handle front
  | sync devices mode => exact orderly_sync h handle devices mode

theorem aside_use (h : Orderly w) (ref : ManagerRef) (handle : Handle) (what : Use) :
    Aside ref w (use handle w what).2 := by
  have hcalls := keptByCalls_aside ref w
  cases what with
  | put es => exact hcalls.put (.refl ref w) handle es
  | delete keys => exact hcalls.delete (.refl ref w) handle keys
  | scan front => exact hcalls.scan (.refl ref w) handle front
  | sync devices mode => exact aside_sync h.accounted ref handle devices mode

theorem orderly_uses (h : Orderly w) (calls : List (Handle × Use)) : Orderly (uses calls w).2 := by
  induction calls generalizing w with
  | nil => exact h
  | cons call calls ih => exact ih (orderly_use h call.1 call.2)

theorem aside_uses (h : Orderly w) (ref : ManagerRef) (calls : List (Handle × Use)) :
    Aside ref w (uses calls w).2 := by
  induction calls generalizing w with
  | nil => exact .refl ref w
  | cons call calls ih =>
      exact (aside_use h ref call.1 call.2).trans (ih (orderly_use h call.1 call.2))

end Uses

/-! ## One loan less makes no difference to others -/

namespace OneLess

variable {ref : ManagerRef} {id : String} {wrapper : Nat × EngineRef} {left : Nat} {w w' : World}
  {handle : Handle}

/-- Another wrapper of the same engine means that there is a loan left. -/
theorem pos_of_wrapper (h : OneLess ref id wrapper left w w') (horderly : Orderly w)
    {other : Nat × EngineRef} (hmem : other ∈ w.wrappers ref) (hne : other ≠ wrapper)
    (hengine : other.2 = wrapper.2) : 0 < left := by
  have hcount := horderly.matched.counted (guarded_of_mem_wrappers h.mem_wrapper) h.loan?
  have hrest : other ∈ (w.wrappers ref).erase wrapper := (List.mem_erase_of_ne hne).mpr hmem
  have hpos : 0 < ((w.wrappers ref).erase wrapper).countP fun x => x.2 == wrapper.2 :=
    List.countP_pos_iff.mpr ⟨other, hrest, beq_iff_eq.mpr hengine⟩
  simp only [wraps] at hcount
  rw [(List.perm_cons_erase h.mem_wrapper).countP_eq, List.countP_cons] at hcount
  simp only [beq_self_eq_true, if_true] at hcount
  omega

/-- Another wrapper is of another engine and another store, or the store is still on loan. -/
theorem apart (h : OneLess ref id wrapper left w w') (horderly : Orderly w)
    (hmem : handle ∈ w.handedOut ref) (hne : handle ≠ .wrapped wrapper.1 ref wrapper.2) :
    (handle.engine ≠ wrapper.2 ∨ 0 < left) ∧
      ∀ e, w.engines.get? handle.engine = some e → e.id ≠ id ∨ 0 < left := by
  obtain ⟨other, rfl, hother⟩ := exists_wrapper_of_mem hmem
  by_cases hengine : other.2 = wrapper.2
  · have hpos := h.pos_of_wrapper horderly hother (fun heq => hne (by rw [heq])) hengine
    exact ⟨.inr hpos, fun _ _ => .inr hpos⟩
  · refine ⟨.inl hengine, fun e he => .inl ?_⟩
    rintro rfl
    -- The store of the id has one engine on loan.
    obtain ⟨id', loan, hloan, hsame⟩ := horderly.matched.lent hother
    obtain ⟨-, e', he', hid⟩ := horderly.accounted.booked.lent hloan
    rw [hsame, show w.engines.get? other.2 = some e from he] at he'
    cases he'
    rw [← hid, h.loan?] at hloan
    cases hloan
    exact hengine hsame.symm

/-- Another wrapper is used as before. -/
theorem use (h : OneLess ref id wrapper left w w') (horderly : Orderly w)
    (hmem : handle ∈ w.handedOut ref) (hne : handle ≠ .wrapped wrapper.1 ref wrapper.2) (what : Use) :
    (World.use handle w' what).1 = (World.use handle w what).1 ∧
      OneLess ref id wrapper left (World.use handle w what).2 (World.use handle w' what).2 := by
  obtain ⟨hhandle, hid⟩ := h.apart horderly hmem hne
  have hreply {α : Type} {r r' : Except StorageError α × World} (reply : Except StorageError α → Reply)
      (hr : SameAnswer ref id wrapper left left r r') :
      reply r'.1 = reply r.1 ∧ OneLess ref id wrapper left r.2 r'.2 := by
    cases hr with
    | ok h₁ => exact ⟨rfl, h₁⟩
    | error h₁ => exact ⟨rfl, h₁⟩
  cases what with
  | put es => exact hreply .done (h.put hhandle es)
  | delete keys => exact hreply .done (h.delete hhandle keys)
  | scan front => exact hreply .entries (h.scan hhandle front)
  | sync devices mode => exact hreply .outcome (h.sync horderly hhandle hid devices mode)

/-- Other wrappers are used as before, as often as one likes. -/
theorem uses (h : OneLess ref id wrapper left w w') (horderly : Orderly w)
    {calls : List (Handle × Use)}
    (hcalls : ∀ call ∈ calls, call.1 ∈ w.handedOut ref ∧ call.1 ≠ .wrapped wrapper.1 ref wrapper.2) :
    (World.uses calls w').1 = (World.uses calls w).1 ∧
      OneLess ref id wrapper left (World.uses calls w).2 (World.uses calls w').2 := by
  induction calls generalizing w w' with
  | nil => exact ⟨rfl, h⟩
  | cons call calls ih =>
      obtain ⟨handle, what⟩ := call
      obtain ⟨hmem, hne⟩ := hcalls _ List.mem_cons_self
      obtain ⟨hreply, h₁⟩ := h.use horderly hmem hne what
      have haside := aside_use horderly ref handle what
      obtain ⟨hreplies, h₂⟩ := ih h₁ (orderly_use horderly handle what) fun call hcall => by
        rw [haside.mem_handedOut]
        exact hcalls call (List.mem_cons_of_mem _ hcall)
      exact ⟨congrArg₂ List.cons hreply hreplies, h₂⟩

end OneLess

/-! ## Returns -/

section Parting

variable {ref : ManagerRef} {w : World}

theorem get?_closeEngine (w : World) (engine r : EngineRef) :
    (closeEngine w engine).engines.get? r =
      if r = engine then (w.engines.get? r).map Engine.close else w.engines.get? r := by
  unfold closeEngine
  split
  · rename_i e he
    rw [SortedMap.get?_insert]
    split
    · rename_i heq
      rw [heq, he, Option.map_some]
    · rfl
  · rename_i hnone
    split
    · rename_i heq
      rw [heq, hnone, Option.map_none]
    · rfl

/-- What a return leaves of the entry of its manager, and of the engines. -/
theorem ReturnsEngine.remains {w' : World} {id : String} {engine : EngineRef} {m : Manager} {loan : Loan}
    (h : ReturnsEngine w ref id engine w') (hm : w.managers.get? ref = some m)
    (hloan : m.loans.get? id = some loan) :
    w'.managers.get? ref = some { m with
      loans :=
        if 1 < loan.handles then m.loans.insert id { loan with handles := loan.handles - 1 }
        else m.loans.erase id } ∧
      ∀ r, w'.engines.get? r =
        if r = engine ∧ ¬ 1 < loan.handles then (w.engines.get? r).map Engine.close
        else w.engines.get? r := by
  cases h with
  | fewer hm₁ hloan₁ _ hmore =>
      rw [hm] at hm₁
      cases hm₁
      rw [hloan] at hloan₁
      cases hloan₁
      refine ⟨?_, fun r => ?_⟩
      · rw [get?_modifyManager, if_pos rfl, hm, if_pos hmore]
        rfl
      · rw [engines_modifyManager, if_neg fun hlast => hlast.2 hmore]
  | last hm₁ hloan₁ _ hlast =>
      rw [hm] at hm₁
      cases hm₁
      rw [hloan] at hloan₁
      cases hloan₁
      refine ⟨?_, fun r => ?_⟩
      · rw [(ways_closeEngine _ engine).2.2.1, get?_modifyManager, if_pos rfl, hm, if_neg hlast]
        rfl
      · rw [get?_closeEngine, engines_modifyManager]
        simp only [hlast, not_false_eq_true, and_true]

/-- What a return leaves is one loan less. -/
theorem ReturnsEngine.oneLess {w' : World} {wrapper : Nat × EngineRef} {id : String}
    (h : ReturnsEngine (unwrapped ref (.wrapped wrapper.1 ref wrapper.2) w) ref id wrapper.2 w')
    (horderly : Orderly w) (hmem : wrapper ∈ w.wrappers ref) :
    ∃ left, OneLess ref id wrapper left w w' := by
  have hbooks := sameBooks_unwrapped ref (.wrapped wrapper.1 ref wrapper.2) w
  have hreturns := hbooks.returns h.returns
  obtain ⟨⟨engine, handles⟩, hloan, rfl, -⟩ := hreturns.loan
  obtain ⟨hpos, e, he, hname⟩ := horderly.accounted.booked.lent hloan
  obtain ⟨m, hm, hentry⟩ := Option.bind_eq_some_iff.mp hloan
  obtain ⟨guard, hguard, hwrapper⟩ : ∃ guard, m.guard = some guard ∧ wrapper ∈ guard.wrappers := by
    unfold wrappers at hmem
    cases hguard : m.guard with
    | none => simp [hm, hguard] at hmem
    | some guard => exact ⟨guard, rfl, by simpa [hm, hguard] using hmem⟩
  obtain ⟨left, rfl⟩ := Nat.exists_eq_succ_of_ne_zero (Nat.ne_of_gt hpos)
  -- First the wrapper is taken off the list, and then the loan off the entry.
  have hunwrapped : (unwrapped ref (.wrapped wrapper.1 ref wrapper.2) w).managers.get? ref =
      some { m with guard := some { guard with wrappers := guard.wrappers.erase wrapper } } := by
    simp [unwrapped, get?_modifyManager, hm, hguard]
  obtain ⟨hmanager, hengines⟩ := h.remains hunwrapped hentry
  rw [hbooks.engines] at hengines
  refine ⟨left, ?_⟩
  constructor
  case next => exact h.next_eq.trans (next_unwrapped ref _ w)
  case disk => exact hreturns.disk
  case names => exact hreturns.ways.names
  case devices => exact hreturns.ways.devices
  case manager => exact ⟨m, _, hm, hmanager, Manager.OneLess.of_return hguard hwrapper hentry⟩
  case managers =>
    intro ref' hne
    rw [h.managers_of_ne hne, unwrapped, get?_modifyManager, if_neg hne]
  case engine =>
    refine ⟨e, he, hname, fun _ hplace => horderly.matched.filed hloan he hplace, ?_⟩
    rw [hengines, he]
    by_cases hleft : left = 0
    · simp [hleft]
    · simp [hleft, Nat.pos_of_ne_zero hleft]
  case engines =>
    intro r hr
    rw [hengines, if_neg fun hlast => hr hlast.1]

/-- A guarded manager takes each of its wrappers back, and that leaves one loan less. -/
theorem exists_oneLess (horderly : Orderly w) {wrapper : Nat × EngineRef}
    (hmem : wrapper ∈ w.wrappers ref) :
    ∃ id left w', (reclaim ref (.wrapped wrapper.1 ref wrapper.2)).exec w = (.ok (), w') ∧
      OneLess ref id wrapper left w w' := by
  have hbooked := horderly.accounted.booked
  have haccepts : Accepts w ref (.wrapped wrapper.1 ref wrapper.2) := accepts_wrapped_iff.mpr ⟨rfl, hmem⟩
  obtain ⟨e, loan, he, hloan, hengine⟩ :=
    horderly.matched.loan_of_accepts hbooked (guarded_of_mem_wrappers hmem) haccepts
  have hreturns := ensures_reclaim_accepted haccepts he hloan hengine
  unfold Ensures at hreturns
  rcases hexec : (reclaim ref (.wrapped wrapper.1 ref wrapper.2)).exec w with ⟨err | _, w'⟩
  · rw [hexec] at hreturns
    exact hreturns.elim
  · rw [hexec] at hreturns
    obtain ⟨left, hless⟩ := ReturnsEngine.oneLess hreturns horderly hmem
    exact ⟨e.id, left, w', rfl, hless⟩

/-- What the return of a wrapper leaves to the others: they are used as if it had not been given back, as
often as one likes, and each of them can be given back after that. -/
structure Parts (ref : ManagerRef) (handle : Handle) (w w' : World) : Prop where
  replies : ∀ calls : List (Handle × Use),
    (∀ call ∈ calls, call.1 ∈ w.handedOut ref ∧ call.1 ≠ handle) → (uses calls w').1 = (uses calls w).1
  closes : ∀ calls : List (Handle × Use),
    (∀ call ∈ calls, call.1 ∈ w.handedOut ref ∧ call.1 ≠ handle) →
      ∀ other ∈ w.handedOut ref, other ≠ handle →
        ∃ w₁, (reclaim ref other).exec (uses calls w').2 = (.ok (), w₁)

/-- A guarded manager takes each of its wrappers back, and nobody who has another one can tell. -/
theorem parts_of_mem (horderly : Orderly w) {handle : Handle} (hmem : handle ∈ w.handedOut ref) :
    ∃ w', (reclaim ref handle).exec w = (.ok (), w') ∧ Parts ref handle w w' := by
  obtain ⟨wrapper, rfl, hwrapper⟩ := exists_wrapper_of_mem hmem
  obtain ⟨id, left, w', hexec, hless⟩ := exists_oneLess horderly hwrapper
  have horderly' := horderly.reclaim ref (.wrapped wrapper.1 ref wrapper.2)
  rw [hexec] at horderly'
  refine ⟨w', hexec, fun calls hcalls => (hless.uses horderly hcalls).1, ?_⟩
  intro calls _ other hother hne
  obtain ⟨wrapper', rfl, hmem'⟩ := exists_wrapper_of_mem hother
  have hstill : wrapper' ∈ w'.wrappers ref :=
    (hless.mem_wrappers fun heq => hne (by rw [heq.2])).mpr hmem'
  obtain ⟨-, -, w₁, hclose, -⟩ := exists_oneLess (orderly_uses horderly' calls)
    (((aside_uses horderly' ref calls).wrappers wrapper').mpr hstill)
  exact ⟨w₁, hclose⟩

end Parting

end ObjectStore.World
