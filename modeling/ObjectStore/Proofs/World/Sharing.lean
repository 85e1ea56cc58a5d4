import ObjectStore.Proofs.World.Deals
import ObjectStore.Proofs.World.Names

/-!
# Depots that share a manager

While a manager is asked by nobody but its depots and by pushes, its books count exactly what its depots
have: under each id as many handles as there are depots of that id that are ready. Each of them has a
handle that the manager will take back, of an engine that is open, and with a guard no two of them have the
same wrapper, so that the return of one takes nothing from another.

Main statements: `Covers.lends`, `Covers.returns` and `covers_happen`.
-/

namespace ObjectStore

/-- What a depot has from a manager while it is ready. -/
structure Share where
  id : String
  options : Options
  handle : Handle
  deriving DecidableEq, Repr

/-- What a depot has from a manager. -/
def Depot.share? (ref : ManagerRef) (d : Depot) : Option Share :=
  if d.manager = ref then
    d.handle?.map fun handle => { id := d.id, options := d.config.options, handle }
  else none

theorem Depot.share?_of_handle? {ref : ManagerRef} {d : Depot} (h : d.handle? = none) :
    d.share? ref = none := by
  simp [share?, h]

theorem Depot.share?_of_ne {ref : ManagerRef} {d : Depot} (h : d.manager ≠ ref) :
    d.share? ref = none := by
  simp [share?, h]

theorem Depot.share?_of_ready {d : Depot} {handle : Handle} (h : d.phase = .ready handle) :
    d.share? d.manager = some { id := d.id, options := d.config.options, handle } := by
  simp [share?, handle?, h]

namespace World

open ObjectStore.Action

/-! ## The invariant -/

/-- What the depots of a world have from a manager. -/
def shares (w : World) (ref : ManagerRef) : List Share :=
  w.depots.values.filterMap (Depot.share? ref)

/-- What all depots but one have from a manager. -/
def otherShares (w : World) (ref : ManagerRef) (name : String) : List Share :=
  (w.depots.erase name).values.filterMap (Depot.share? ref)

/-- The books of a manager count the given shares and nothing else. -/
structure Covers (ref : ManagerRef) (out : List Share) (w : World) : Prop where
  booked : Booked w
  there : (w.guarded? ref).isSome
  alive : Alive w ref
  counted : ∀ id, w.handles ref id = out.countP fun s => s.id == id
  /-- Each of them is taken back, and of the engine on loan. -/
  lent : ∀ s ∈ out, Accepts w ref s.handle ∧ ∃ loan e, w.loan? ref s.id = some loan ∧
    loan.engine = s.handle.engine ∧ w.engines.get? loan.engine = some e ∧
      e.options.sameLayout s.options = true
  /-- No wrapper is lent twice. -/
  distinct : (out.filterMap fun s => s.handle.wrapper?).Nodup
  older : ∀ s ∈ out, ∀ wrapper, s.handle.wrapper? = some wrapper → wrapper.1 < w.next
  /-- Named handles are of other engines. -/
  strangers : ∀ {name handle}, w.handleNames.get? name = some handle →
    w.Has handle.engine ∧ ¬ w.IsLent ref handle.engine

namespace Covers

variable {ref : ManagerRef} {out out' : List Share} {w w' : World} {s : Share}

theorem perm (h : Covers ref out w) (hperm : out.Perm out') : Covers ref out' w where
  booked := h.booked
  there := h.there
  alive := h.alive
  counted id := (h.counted id).trans (hperm.countP_eq _)
  lent s hs := h.lent s (hperm.mem_iff.mpr hs)
  distinct := (hperm.filterMap _).nodup_iff.mp h.distinct
  older s hs := h.older s (hperm.mem_iff.mpr hs)
  strangers := h.strangers

/-- What leaves the loans of the manager alone leaves them counted, as long as no name is given to what
the manager has on loan. -/
theorem aside (h : Covers ref out w) (hbooked : Booked w') (haside : Aside ref w w')
    (hnames : ∀ {name handle}, w'.handleNames.get? name = some handle →
      w.handleNames.get? name = some handle ∨ w'.Has handle.engine ∧ ¬ w'.IsLent ref handle.engine) :
    Covers ref out w' where
  booked := hbooked
  there := by rw [haside.guarded]; exact h.there
  alive := h.alive.aside haside
  counted id := (haside.handles_eq id).trans (h.counted id)
  lent s hs := by
    obtain ⟨haccepts, loan, e, hloan, hengine, he, hlayout⟩ := h.lent s hs
    obtain ⟨e', he', -, hoptions, -⟩ := haside.engines he
    exact ⟨(haside.accepts_iff s.handle).mpr haccepts, loan, e', (haside.loans s.id).trans hloan, hengine,
      he', by rwa [hoptions]⟩
  distinct := h.distinct
  older s hs wrapper hwrapper := Nat.lt_of_lt_of_le (h.older s hs wrapper hwrapper) haside.next
  strangers hname := by
    rcases hnames hname with hold | hnew
    · obtain ⟨⟨e, he⟩, hnot⟩ := h.strangers hold
      obtain ⟨e', he', -⟩ := haside.engines he
      exact ⟨⟨e', he'⟩, fun hlent => hnot ((haside.isLent_iff _).mp hlent)⟩
    · exact hnew

theorem of_sameNames (h : Covers ref out w) (hbooked : Booked w') (haside : Aside ref w w')
    (hnames : SameNames w w') : Covers ref out w' :=
  h.aside hbooked haside fun hname => .inl (by rwa [hnames.handleNames] at hname)

theorem of_eq (h : Covers ref out w) (hnext : w'.next = w.next) (hengines : w'.engines = w.engines)
    (hmanagers : w'.managers = w.managers) (hhandles : w'.handleNames = w.handleNames) :
    Covers ref out w' :=
  h.aside (h.booked.steady (.of_eq hnext hengines hmanagers)) (.of_eq hnext hengines hmanagers)
    fun hname => .inl (by rwa [hhandles] at hname)

end Covers

/-! ## Loans and returns -/

section Lending

variable {ref : ManagerRef} {out : List Share} {w w' : World} {s : Share} {id : String}
  {options : Options} {handle : Handle}

/-- A wrapper that is lent is new. -/
theorem LendsHandle.wrapper_fresh (h : LendsHandle w ref id options handle w')
    {wrapper : Nat × EngineRef} (hwrapper : handle.wrapper? = some wrapper) :
    w.next ≤ wrapper.1 ∧ wrapper.1 < w'.next := by
  cases h with
  | direct => cases hwrapper
  | wrapped hlends =>
      cases hwrapper
      refine ⟨hlends.next_le, ?_⟩
      rw [wrap, next_modifyManager]
      exact Nat.lt_succ_self _

/-- What a manager takes back it takes back after a loan too. -/
theorem LendsHandle.accepts_of_accepts {handle' : Handle} (h : LendsHandle w ref id options handle w')
    (haccepts : Accepts w ref handle') : Accepts w' ref handle' := by
  cases handle' with
  | direct engine =>
      rw [accepts_direct_iff] at haccepts ⊢
      rw [h.guarded?_eq, haccepts]
  | wrapped serial lender engine =>
      rw [accepts_wrapped_iff] at haccepts ⊢
      rw [h.guards.2]
      exact ⟨haccepts.1, List.mem_append_left _ haccepts.2⟩

theorem Covers.lends (h : Covers ref out w) (hlends : LendsHandle w ref id options handle w')
    (hpermits : Permits w ref id options) : Covers ref ({ id, options, handle } :: out) w' := by
  have hbooks := hlends.lends
  have hfresh := h.booked.fresh
  constructor
  case booked => exact h.booked.lends hbooks
  case there =>
    rw [hlends.guarded?_eq]
    exact h.there
  case alive => exact h.alive.lends hfresh hlends hpermits
  case counted =>
    intro id'
    rw [hbooks.handles_eq, h.counted, List.countP_cons]
    simp
  case lent =>
    intro s hs
    rcases List.mem_cons.mp hs with rfl | hs
    · obtain ⟨e, he, -, hlayout⟩ := h.booked.engine_of_lends hbooks
      exact ⟨hlends.accepts, _, e, hbooks.loan, rfl, he, hlayout⟩
    · obtain ⟨haccepts, loan, e, hloan, hengine, he, hlayout⟩ := h.lent s hs
      obtain ⟨loan', hloan', hsame⟩ := hbooks.kept_loan hloan
      refine ⟨hlends.accepts_of_accepts haccepts, loan', e, hloan', hsame.trans hengine, ?_, hlayout⟩
      rw [hsame]
      exact hbooks.get?_engines hfresh he
  case distinct =>
    rw [List.filterMap_cons]
    cases hwrapper : handle.wrapper? with
    | none => exact h.distinct
    | some wrapper =>
        refine List.nodup_cons.mpr ⟨fun hmem => ?_, h.distinct⟩
        -- The serial numbers that are lent out already are older.
        obtain ⟨s, hs, hsame⟩ := List.mem_filterMap.mp hmem
        exact Nat.lt_irrefl _
          (Nat.lt_of_lt_of_le (h.older s hs wrapper hsame) (hlends.wrapper_fresh hwrapper).1)
  case older =>
    intro s hs wrapper hwrapper
    rcases List.mem_cons.mp hs with rfl | hs
    · exact (hlends.wrapper_fresh hwrapper).2
    · exact Nat.lt_of_lt_of_le (h.older s hs wrapper hwrapper) hlends.next_le
  case strangers =>
    intro name handle' hname
    rw [hbooks.ways.names.handleNames] at hname
    obtain ⟨⟨e, he⟩, hnot⟩ := h.strangers hname
    refine ⟨⟨e, hbooks.get?_engines hfresh he⟩, fun hlent => ?_⟩
    rcases hbooks.isLent_cases hfresh hlent with hold | hnew
    · exact hnot hold
    · rw [he] at hnew
      cases hnew

/-- After the return of one handle the others are taken back that are no wrapper or another one. -/
theorem accepts_of_returned {engine : EngineRef} {handle' : Handle}
    (h : ReturnsEngine (unwrapped ref handle w) ref id engine w')
    (hother : ∀ wrapper, handle'.wrapper? = some wrapper → handle.wrapper? ≠ some wrapper)
    (haccepts : Accepts w ref handle') : Accepts w' ref handle' := by
  obtain ⟨hswitches, hwrappers⟩ := guards_unwrapped ref handle w
  cases handle' with
  | direct engine' =>
      rw [accepts_direct_iff, guarded?_eq_switches?] at haccepts ⊢
      rw [h.sameGuards.switches, hswitches, haccepts]
  | wrapped serial lender engine' =>
      rw [accepts_wrapped_iff] at haccepts ⊢
      rw [h.sameGuards.wrappers, hwrappers, if_pos rfl]
      refine ⟨haccepts.1, ?_⟩
      cases hwrapper : handle.wrapper? with
      | none => exact haccepts.2
      | some wrapper =>
          refine (List.mem_erase_of_ne ?_).mpr haccepts.2
          rintro rfl
          exact hother _ rfl hwrapper

/-- No two of the shares have the same wrapper. -/
theorem Covers.wrapper_ne (h : Covers ref (s :: out) w) {s' : Share} (hs' : s' ∈ out)
    {wrapper : Nat × EngineRef} (hwrapper : s'.handle.wrapper? = some wrapper) :
    s.handle.wrapper? ≠ some wrapper := by
  intro hsame
  have hdistinct := h.distinct
  rw [List.filterMap_cons, hsame] at hdistinct
  exact (List.nodup_cons.mp hdistinct).1 (List.mem_filterMap.mpr ⟨s', hs', hwrapper⟩)

/-- What the others have is on loan also once one of them has given its handle back. -/
theorem Covers.loan_of_returns (h : Covers ref (s :: out) w) {engine : EngineRef}
    (hreturns : Returns w ref s.id engine w') {s' : Share} (hs' : s' ∈ out) :
    ∃ loan e, w'.loan? ref s'.id = some loan ∧ loan.engine = s'.handle.engine ∧
      w'.engines.get? loan.engine = some e ∧ e.options.sameLayout s'.options = true := by
  obtain ⟨-, loan, e, hloan, hengine, he, hlayout⟩ := h.lent s' (List.mem_cons_of_mem s hs')
  have hkept : ∃ loan', w'.loan? ref s'.id = some loan' ∧ loan'.engine = loan.engine := by
    by_cases heq : s'.id = s.id
    · -- There are two loans of the store at least, so that one is left.
      have hmore : 1 < loan.handles := by
        have hcount := h.counted s'.id
        rw [handles_of_loan hloan, List.countP_cons, heq] at hcount
        have hself : 0 < out.countP fun s'' => s''.id == s.id :=
          List.countP_pos_iff.mpr ⟨s', hs', by simp [heq]⟩
        simp only [beq_self_eq_true, if_true] at hcount
        omega
      obtain ⟨old, hold, -, hleft⟩ := hreturns.loan
      rw [heq] at hloan
      rw [hloan] at hold
      cases hold
      rw [if_pos hmore] at hleft
      exact ⟨{ loan with handles := loan.handles - 1 }, by rw [heq, hleft], rfl⟩
    · exact ⟨loan, (hreturns.loans fun hentry => heq hentry.2).trans hloan, rfl⟩
  obtain ⟨loan', hloan', hsame⟩ := hkept
  rw [← hsame] at he
  rcases hreturns.engines he with hopen | ⟨-, -, hclosed⟩
  · exact ⟨loan', e, hloan', hsame.trans hengine, hopen, hlayout⟩
  · exact ⟨loan', e.close, hloan', hsame.trans hengine, hclosed, hlayout⟩

/-- What a depot has is taken back, and that takes nothing from the others. -/
theorem Covers.returns (h : Covers ref (s :: out) w) :
    (reclaim ref s.handle).Ensures w (fun _ w' => Covers ref out w') fun _ _ => False := by
  obtain ⟨haccepts, loan, e, hloan, hengine, he, -⟩ := h.lent s List.mem_cons_self
  have hid : e.id = s.id := by
    obtain ⟨-, e', he', hid⟩ := h.booked.lent hloan
    rw [he] at he'
    cases he'
    exact hid
  rw [hengine] at he
  refine (ensures_reclaim_accepted haccepts he (by rwa [hid]) hengine).weaken ?_ fun _ _ h => h
  intro _ w' hreturned
  rw [hid] at hreturned
  have hbooks := (sameBooks_unwrapped ref s.handle w).returns hreturned.returns
  have hdistinct := h.distinct
  constructor
  case booked => exact h.booked.returns hbooks
  case there =>
    rw [guarded?_eq_switches?, hreturned.sameGuards.switches, (guards_unwrapped ref s.handle w).1,
      ← guarded?_eq_switches?]
    exact h.there
  case alive => exact h.alive.returns h.booked hbooks
  case counted =>
    intro id
    have hcount := h.counted id
    rw [← hbooks.handles_eq h.booked, List.countP_cons] at hcount
    simpa using hcount
  case lent =>
    intro s' hs'
    exact ⟨accepts_of_returned hreturned (fun _ => h.wrapper_ne hs')
      (h.lent s' (List.mem_cons_of_mem s hs')).1, h.loan_of_returns hbooks hs'⟩
  case distinct =>
    rw [List.filterMap_cons] at hdistinct
    cases hwrapper : s.handle.wrapper? with
    | none => rwa [hwrapper] at hdistinct
    | some wrapper =>
        rw [hwrapper] at hdistinct
        exact (List.nodup_cons.mp hdistinct).2
  case older =>
    intro s' hs' wrapper hwrapper
    rw [hreturned.next_eq, next_unwrapped]
    exact h.older s' (List.mem_cons_of_mem s hs') wrapper hwrapper
  case strangers =>
    intro name handle hname
    rw [hbooks.ways.names.handleNames] at hname
    obtain ⟨hhas, hnot⟩ := h.strangers hname
    exact ⟨hbooks.has _ hhas, fun hlent => hnot (hbooks.isLent hlent)⟩

end Lending

/-! ## The life of a depot -/

section Life

variable {ref : ManagerRef} {out : List Share} {w w' : World} {d : Depot} {name : String}

theorem booked_reclaim (h : Booked w) (ref : ManagerRef) (handle : Handle) :
    Booked ((reclaim ref handle).exec w).2 := by
  refine Ensures.exec_snd ((ensures_reclaim_books ref handle w).weaken ?_ ?_)
  · rintro - w' ⟨e, -, hreturns⟩
    exact h.returns hreturns
  · exact fun _ _ hrefused => h.steady hrefused.1.steady

/-- A depot of the manager that is opened gets a share, and one that cannot be opened does not. -/
theorem ensures_start_covers (h : Covers ref ((d.share? ref).toList ++ out) w) :
    (start d).Ensures w (fun p w' => Covers ref ((p.share? ref).toList ++ out) w')
      fun _ w' => Covers ref ((d.share? ref).toList ++ out) w' := by
  unfold start
  split
  · exact ensures_pure h
  · rename_i hphase
    rw [Depot.share?_of_handle? (Depot.handle?_eq_none hphase)] at h ⊢
    have hbase : Covers ref out (w.modifyManager d.manager fun m =>
        { m with base := some d.config.base }) :=
      h.of_sameNames (h.booked.steady (steady_modifyManager fun _ => rfl))
        (.modifyManager (fun _ => rfl) fun _ _ => rfl) (sameNames_modifyManager _ _ _)
    refine Ensures.bind (P := fun _ w' => Covers ref out w') (ensures_modify hbase) ?_
    intro _ w₁ h₁
    by_cases hmanager : d.manager = ref
    · subst hmanager
      refine Ensures.bind (ensures_mapError ((ensures_lend_or_denies d.manager d.id d.config.options
        w₁).weaken (fun _ _ h => h) ?_)) ?_
      · intro err w₂ hdenies
        have hrefused := hdenies.refused
        exact h₁.of_sameNames (h₁.booked.steady hrefused.steady.1) (hrefused.aside _) hrefused.steady.2
      · rintro handle w₂ ⟨hlends, hpermits⟩
        refine ensures_pure ?_
        rw [show Depot.share? d.manager { d with phase := .ready handle } =
          some { id := d.id, options := d.config.options, handle } from
            Depot.share?_of_ready (d := { d with phase := .ready handle }) rfl]
        exact h₁.lends hlends hpermits
    · have hlend := (aside_lend h₁.booked (Ne.symm hmanager) d.id d.config.options).and
        (sameNames_lend d.manager d.id d.config.options w₁)
      refine Ensures.bind (P := fun _ w' => Covers ref out w')
        (ensures_mapError (hlend.weaken ?_ ?_)) ?_
      · exact fun _ _ h => h₁.of_sameNames h.1.1 h.1.2 h.2
      · exact fun _ _ h => h₁.of_sameNames h.1.1 h.1.2 h.2
      · intro handle w₂ h₂
        refine ensures_pure ?_
        rw [Depot.share?_of_ne (d := { d with phase := .ready handle }) hmanager]
        exact h₂

/-- A depot that is closed has given its share back. -/
theorem covers_stop (h : Covers ref ((d.share? ref).toList ++ out) w) :
    Covers ref out ((stop d).run w).2 := by
  unfold stop
  cases hphase : d.phase with
  | ready handle =>
      by_cases hmanager : d.manager = ref
      · subst hmanager
        rw [Depot.share?_of_ready hphase] at h
        exact Ensures.exec_snd (h.returns.weaken (fun _ _ h => h) fun _ _ h => h.elim)
      · rw [Depot.share?_of_ne hmanager] at h
        exact h.of_sameNames (booked_reclaim h.booked d.manager handle)
          (aside_reclaim h.booked (Ne.symm hmanager) handle) (still_reclaim d.manager handle w).2
  | uninitialized =>
      rwa [Depot.share?_of_handle? (Depot.handle?_eq_none (by simp [hphase]))] at h
  | closed =>
      rwa [Depot.share?_of_handle? (Depot.handle?_eq_none (by simp [hphase]))] at h

theorem shares_perm (w : World) (ref : ManagerRef) (name : String) :
    (w.shares ref).Perm
      (((w.depots.get? name).bind (Depot.share? ref)).toList ++ w.otherShares ref name) :=
  perm_filterMap_depots (Depot.share? ref) w name

theorem SameNames.shares (h : SameNames w w') (ref : ManagerRef) : w'.shares ref = w.shares ref := by
  unfold World.shares
  rw [h.depots]

theorem SameNames.otherShares (h : SameNames w w') (ref : ManagerRef) (name : String) :
    w'.otherShares ref name = w.otherShares ref name := by
  unfold World.otherShares
  rw [h.depots]

/-- What the depots have, with one of them under a new or an old name. -/
theorem Covers.setDepot (h : Covers ref ((d.share? ref).toList ++ w.otherShares ref name) w) :
    Covers ref ((w.setDepot name d).shares ref) (w.setDepot name d) := by
  have hset : Covers ref _ (w.setDepot name d) := h.of_eq rfl rfl rfl rfl
  exact hset.perm (perm_filterMap_setDepot (Depot.share? ref) w name d).symm

theorem covers_startNamed (h : Covers ref (w.shares ref) w) (hd : w.depots.get? name = some d) :
    Covers ref (((startNamed name d).exec w).2.shares ref) ((startNamed name d).exec w).2 := by
  have hperm := shares_perm w ref name
  rw [hd, Option.bind_some] at hperm
  refine Ensures.exec_snd (P := fun w' => Covers ref (w'.shares ref) w') ?_
  refine Ensures.bind (((ensures_start_covers (h.perm hperm)).and (sameNames_start d w)).weaken
    (fun _ _ h => h) ?_) ?_
  · rintro _ w' ⟨h', hnames⟩
    rw [hnames.shares]
    exact h'.perm hperm.symm
  · rintro p w' ⟨h', hnames⟩
    rw [← hnames.otherShares ref name] at h'
    exact ensures_modify h'.setDepot

theorem covers_stopNamed (h : Covers ref (w.shares ref) w) (hd : w.depots.get? name = some d) :
    Covers ref (((stopNamed name d).run w).2.shares ref) ((stopNamed name d).run w).2 := by
  have hperm := shares_perm w ref name
  rw [hd, Option.bind_some] at hperm
  have hstopped := covers_stop (h.perm hperm)
  have hrun : ((stopNamed name d).run w).2 =
      ((stop d).run w).2.setDepot name { d with phase := .closed } := by
    rw [← stop_fst d w]
    rfl
  have hclosed : ({ d with phase := .closed } : Depot).share? ref = none :=
    Depot.share?_of_handle? rfl
  rw [← (still_stop d w).2.otherShares ref name] at hstopped
  rw [hrun]
  refine Covers.setDepot ?_
  rwa [hclosed]

/-- A depot that is discarded gives its share back. -/
theorem covers_discardDepot {old : Option Depot}
    (h : Covers ref ((old.bind (Depot.share? ref)).toList ++ out) w) :
    Covers ref out (discardDepot old w) := by
  unfold discardDepot
  split
  · rename_i d
    have hstopped := covers_stop h
    simp only
    split
    · rename_i place _
      exact hstopped.of_sameNames (hstopped.booked.steady (steady_removeDirectory _ place))
        (aside_removeDirectory place) ⟨rfl, rfl, rfl⟩
    · exact hstopped
  · exact h

/-- The depot that has lost its name gives its share back, and the one that has it now keeps its own. -/
theorem covers_nameDepot (h : Covers ref ((d.share? ref).toList ++ w.shares ref) w) (name : String) :
    Covers ref ((w.nameDepot name d).shares ref) (w.nameDepot name d) := by
  have hnames := sameNames_discardDepot (w.depots.get? name) (w.setDepot name d)
  have hold := h.perm ((shares_perm w ref name).append_left _)
  have hset : Covers ref _ (w.setDepot name d) := hold.of_eq rfl rfl rfl rfl
  rw [show (w.nameDepot name d).shares ref = (w.setDepot name d).shares ref from hnames.shares ref]
  refine (covers_discardDepot (hset.perm ?_)).perm
    (perm_filterMap_setDepot (Depot.share? ref) w name d).symm
  exact List.perm_append_comm_assoc _ _ _

theorem covers_dropDepot (h : Covers ref (w.shares ref) w) (name : String) :
    Covers ref ((w.dropDepot name).shares ref) (w.dropDepot name) := by
  have hnames := sameNames_discardDepot (w.depots.get? name) { w with depots := w.depots.erase name }
  have hdropped : Covers ref _ { w with depots := w.depots.erase name } :=
    (h.perm (shares_perm w ref name)).of_eq rfl rfl rfl rfl
  rw [show (w.dropDepot name).shares ref = w.otherShares ref name from hnames.shares ref]
  exact covers_discardDepot hdropped

/-- A depot that is opened before it gets its name. -/
theorem covers_nameStarted (h : Covers ref (w.shares ref) w) (hd : d.share? ref = none)
    (managerName depotName : String) :
    Covers ref (((((start d).exec w).2.nameManager managerName d.manager).nameDepot depotName
      (((start d).exec w).1.toOption.getD d)).shares ref)
      ((((start d).exec w).2.nameManager managerName d.manager).nameDepot depotName
        (((start d).exec w).1.toOption.getD d)) := by
  have hnone : Covers ref ((d.share? ref).toList ++ w.shares ref) w := by
    rw [hd]
    exact h
  have hstart := (ensures_start_covers hnone).and (sameNames_start d w)
  unfold Ensures at hstart
  rcases hexec : (start d).exec w with ⟨err | p, w'⟩
  · rw [hexec] at hstart
    obtain ⟨hcovers, hnames⟩ := hstart
    rw [← hnames.shares ref] at hcovers
    have hnamed : Covers ref _ (w'.nameManager managerName d.manager) := hcovers.of_eq rfl rfl rfl rfl
    exact covers_nameDepot hnamed depotName
  · rw [hexec] at hstart
    obtain ⟨hcovers, hnames⟩ := hstart
    rw [← hnames.shares ref] at hcovers
    have hnamed : Covers ref _ (w'.nameManager managerName d.manager) := hcovers.of_eq rfl rfl rfl rfl
    exact covers_nameDepot hnamed depotName

/-- A ready-made depot has another manager, which is new. -/
theorem covers_addReadyMade (h : Covers ref (w.shares ref) w) (managerName depotName : String)
    (kind : ReadyMade) (scratch : String) :
    Covers ref ((w.addReadyMade managerName depotName kind scratch).shares ref)
      (w.addReadyMade managerName depotName kind scratch) := by
  have hnew := ne_next_of_guarded? h.booked.fresh h.there
  have hadded {m : Manager} (hm : m.loans = ∅) : Covers ref (w.shares ref) (w.addManager m).2 :=
    h.of_sameNames (h.booked.steady ((steady_addManager h.booked.fresh hm "").trans (.of_eq rfl rfl rfl)))
      (aside_addManager h.booked.fresh hnew hm) ⟨rfl, rfl, rfl⟩
  unfold addReadyMade
  simp only
  exact covers_nameStarted (hadded rfl) (Depot.share?_of_handle? rfl) managerName depotName

end Life

/-! ## Every event -/

/-- Nobody but depots and pushes is lent anything by the manager or gives anything back to it. -/
def Sole (w : World) (ref : ManagerRef) : Event → Prop
  | .lend _ manager _ _ | .reclaim manager _ => w.managerNames.get? manager ≠ some ref
  | .lendStore _ name =>
    ∀ d, w.depots.get? name = some d → w.managerNames.get? d.managerName ≠ some ref
  | _ => True

section Events

variable {ref : ManagerRef} {out : List Share} {w w' : World}

/-- What gives and takes no names leaves the loans of the manager alone. -/
theorem Covers.spares (h : Covers ref out w) {event : Event} (hnameless : event.isNameless = true)
    (hsole : w.Sole ref event) : w.Spares ref event := by
  cases event with
  | call call => cases call <;> trivial
  | reclaim => exact hsole
  | close => exact fun handle hname => (h.strangers hname).2
  | _ => trivial

/-- Under the same depots. -/
theorem Covers.of_depots (h : Covers ref (w.shares ref) w) (hbooked : Booked w')
    (haside : Aside ref w w') (hdepots : w'.depots = w.depots)
    (hnames : ∀ {name handle}, w'.handleNames.get? name = some handle →
      w.handleNames.get? name = some handle ∨ w'.Has handle.engine ∧ ¬ w'.IsLent ref handle.engine) :
    Covers ref (w'.shares ref) w' := by
  unfold shares
  rw [hdepots]
  exact h.aside hbooked haside hnames

/-- A handle that gets a name. -/
theorem nameHandle_cases {name name' : String} {handle handle' : Handle}
    (h : (w.nameHandle name handle).handleNames.get? name' = some handle') :
    w.handleNames.get? name' = some handle' ∨ handle' = handle := by
  rw [show (w.nameHandle name handle).handleNames = w.handleNames.insert name handle from rfl,
    SortedMap.get?_insert] at h
  split at h
  · cases h
    exact .inr rfl
  · exact .inl h

/-- What another manager lends under a name is not an engine that this one has on loan. -/
theorem covers_lendNamed (haccounted : Accounted w) (h : Covers ref (w.shares ref) w)
    {ref' : ManagerRef} (hne : ref ≠ ref') (handle id : String) (options : Options) :
    Covers ref (((lendNamed handle ref' id options).exec w).2.shares ref)
      ((lendNamed handle ref' id options).exec w).2 := by
  have hbooked := (accounted_lendNamed haccounted handle ref' id options).booked
  have haside := aside_lendNamed h.booked hne handle id options
  rcases lendNamed_cases handle ref' id options w with hrefused | ⟨lent, w₁, hlends, hexec⟩
  · have hnames := hrefused.steady.2
    exact h.of_depots hbooked haside hnames.depots fun hname => .inl (by rwa [hnames.handleNames] at hname)
  · have hbooks := hlends.lends
    obtain ⟨hbooked₁, hhas⟩ := haccounted.lends hlends
    rw [hexec] at hbooked haside ⊢
    refine h.of_depots hbooked haside hbooks.ways.names.depots fun {name handle'} hname => ?_
    rcases nameHandle_cases hname with hold | rfl
    · left
      rwa [← hbooks.ways.names.handleNames]
    · refine .inr ⟨hhas, ?_⟩
      rintro ⟨id', loan, hloan, hengine⟩
      exact hne (hbooked₁.booked.apart hloan hbooks.loan hengine)

/-- An engine that nobody had before is not on loan. -/
theorem covers_nameEngine (h : Covers ref (w.shares ref) w) (hbooked : Booked w')
    (haside : Aside ref w w') (hdepots : w'.depots = w.depots) {name : String}
    (hnames : w'.handleNames = w.handleNames.insert name (.direct w.next)) (hhas : w'.Has w.next) :
    Covers ref (w'.shares ref) w' := by
  refine h.of_depots hbooked haside hdepots fun {name' handle'} hname => ?_
  rw [hnames, SortedMap.get?_insert] at hname
  split at hname
  · cases hname
    refine .inr ⟨hhas, fun hlent => ?_⟩
    obtain ⟨id, loan, hloan, hengine⟩ := (haside.isLent_iff _).mp hlent
    obtain ⟨-, e, he, -⟩ := h.booked.lent hloan
    rw [hengine, show (Handle.direct w.next).engine = w.next from rfl,
      (h.booked.fresh w.next (Nat.le_refl _)).1] at he
    cases he
  · exact .inl hname

theorem covers_step (haccounted : Accounted w) (h : Covers ref (w.shares ref) w) {call : Call}
    (hnames : (Event.call call).isNameless = false) :
    Covers ref ((step w call).shares ref) (step w call) := by
  have hnew := ne_next_of_guarded? h.booked.fresh h.there
  have hbooked := (accounted_step haccounted call).booked
  cases call with
  | addManager name app user base networked guarded =>
      exact h.of_depots hbooked (aside_step haccounted hnew trivial) rfl .inl
  | dropManager name => exact h.of_depots hbooked (.of_eq rfl rfl rfl) rfl .inl
  | addDepot name manager id config =>
      simp only [step]
      split
      · rename_i ref' _
        have hnone : Depot.share? ref { id, manager := ref', managerName := manager, config } = none :=
          Depot.share?_of_handle? rfl
        refine covers_nameDepot ?_ name
        rwa [hnone]
      · exact h
  | dropDepot name => exact covers_dropDepot h name
  | start name =>
      simp only [step, onDepot]
      split
      · rename_i d hd
        exact covers_startNamed h hd
      · exact h
  | stop name =>
      simp only [step, onDepot]
      split
      · rename_i d hd
        exact covers_stopNamed h hd
      · exact h
  | _ => cases hnames

/-- Whatever happens, the books count what the depots have, as long as nobody else deals with the
manager. -/
theorem covers_happen (haccounted : Accounted w) (h : Covers ref (w.shares ref) w) {event : Event}
    (hsole : w.Sole ref event) : Covers ref ((happen w event).shares ref) (happen w event) := by
  have hnew := ne_next_of_guarded? h.booked.fresh h.there
  have hbooked := (accounted_happen haccounted event).booked
  cases hnameless : event.isNameless with
  | true =>
      have hnames := sameNames_happen haccounted hnameless
      have haside := aside_happen haccounted hnew (h.spares hnameless hsole)
      rw [hnames.shares]
      exact h.of_sameNames hbooked haside hnames
  | false =>
      cases event with
      | call call => exact covers_step haccounted h hnameless
      | lend handle manager id options =>
          simp only [happen]
          split
          · rename_i ref' href'
            refine covers_lendNamed haccounted h ?_ handle id options
            rintro rfl
            exact hsole href'
          · exact h
      | lendStore handle depot =>
          simp only [happen]
          split
          · rename_i d hd
            split
            · rename_i ref' m hnamed
              refine covers_lendNamed haccounted h ?_ handle d.id d.config.options
              rintro rfl
              exact hsole d hd (managerNames_of_managerNamedBy hnamed)
            · exact h
          · exact h
      | openMemory handle id options networked =>
          have hadded := haccounted.addEngine (e := { id, options, networked }) fun place hplace => by
            cases hplace
          exact covers_nameEngine h hbooked (aside_happen haccounted hnew trivial) rfl rfl hadded.2
      | openDirectory handle path id options networked =>
          have haside : Aside ref w _ := aside_openNamed haccounted handle path id options networked
          simp only [happen] at hbooked ⊢
          rw [exec_openNamed] at hbooked haside ⊢
          rcases hopen : Engine.openDirectory path id options networked w.isDirectoryHeld w.disk with
            ⟨err | e, disk⟩
          · rw [hopen] at hbooked haside
            exact h.of_depots hbooked haside rfl .inl
          · rw [hopen] at hbooked haside
            exact covers_nameEngine h hbooked haside rfl rfl
              ⟨e, (SortedMap.get?_insert _ _ _ _).trans (if_pos rfl)⟩
      | dropHandle handle =>
          exact h.of_depots hbooked (.of_eq rfl rfl rfl) rfl fun hname =>
            .inl (SortedMap.get?_of_get?_erase hname)
      | setCodecFaults depot faults =>
          simp only [happen]
          split
          · rename_i d hd
            have hperm := shares_perm w ref depot
            rw [hd, Option.bind_some] at hperm
            exact Covers.setDepot (d := { d with codecFaults := some faults }) (h.perm hperm)
          · exact h
      | addReadyMade manager depot kind scratch =>
          exact covers_addReadyMade h manager depot kind scratch
      | _ => cases hnameless

end Events

end World

end ObjectStore
