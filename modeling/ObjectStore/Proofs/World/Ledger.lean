import ObjectStore.Proofs.World.Accounts
import ObjectStore.Proofs.World.Runs

/-!
# The books cover what is borrowed

A depot that is ready has borrowed the engine of its store. The books of its manager cover that: the
engine is on loan under the id of the store, at least once for each depot that has borrowed it, and it is
open. What is on loan under two entries of any books are two engines.

Main statements: `Ledger.lends`, `Ledger.returns` and `Ledger.steady`, that loans, returns and steps
that leave the books alone keep it so.
-/

namespace ObjectStore

/-- What a depot has borrowed while it is ready: the engine of its store, from its manager. -/
structure Borrowing where
  manager : ManagerRef
  id : String
  options : Options
  engine : EngineRef
  deriving DecidableEq, Repr

/-- Whether two depots have borrowed from the same entry of the same books. -/
def Borrowing.sameEntry (b b' : Borrowing) : Bool :=
  b.manager == b'.manager && b.id == b'.id

theorem Borrowing.sameEntry_iff {b b' : Borrowing} :
    b.sameEntry b' = true ↔ b.manager = b'.manager ∧ b.id = b'.id := by
  simp [sameEntry]

/-- What a depot has borrowed. -/
def Depot.borrowing? (d : Depot) : Option Borrowing :=
  d.handle?.map fun handle =>
    { manager := d.manager, id := d.id, options := d.config.options, engine := handle.engine }

theorem Depot.borrowing?_of_ready {d : Depot} {handle : Handle} (h : d.phase = .ready handle) :
    d.borrowing? =
      some
        { manager := d.manager
          id := d.id
          options := d.config.options
          engine := handle.engine } := by
  simp [borrowing?, handle?, h]

/-- A depot that has no handle has borrowed nothing. -/
theorem Depot.borrowing?_of_handle? {d : Depot} (h : d.handle? = none) : d.borrowing? = none := by
  simp [borrowing?, h]

namespace World

open ObjectStore.Action

/-! ## The invariant -/

/-- The books cover what is borrowed. -/
structure Ledger (w : World) (out : List Borrowing) : Prop where
  fresh : Fresh w
  /-- What is on loan is open, and it is the store that the entry names. -/
  lent : ∀ {ref id loan}, w.loan? ref id = some loan →
    0 < loan.handles ∧ ∃ e, w.engines.get? loan.engine = some e ∧ e.id = id ∧ e.isClosed = false
  /-- No engine is on loan from two managers. -/
  apart : ∀ {ref ref' id id' loan loan'}, w.loan? ref id = some loan →
    w.loan? ref' id' = some loan' → loan.engine = loan'.engine → ref = ref'
  /-- What is borrowed is on loan, and as often. -/
  counted : ∀ b ∈ out, ∃ loan e, w.loan? b.manager b.id = some loan ∧ loan.engine = b.engine ∧
    out.countP b.sameEntry ≤ loan.handles ∧ w.engines.get? b.engine = some e ∧
      e.options.sameLayout b.options = true

namespace Ledger

variable {w w' : World} {out : List Borrowing} {b : Borrowing}

theorem booked (h : Ledger w out) : Booked w where
  fresh := h.fresh
  lent hloan := by
    obtain ⟨hpos, e, he, hid, -⟩ := h.lent hloan
    exact ⟨hpos, e, he, hid⟩
  apart := h.apart

/-- What is borrowed is open, and it is the store that was asked for. -/
theorem engine (h : Ledger w out) (hb : b ∈ out) :
    ∃ e, w.engines.get? b.engine = some e ∧ e.id = b.id ∧ e.isClosed = false ∧
      e.options.sameLayout b.options = true := by
  obtain ⟨loan, e, hloan, hengine, -, he, hlayout⟩ := h.counted b hb
  obtain ⟨-, e', he', hid, hopen⟩ := h.lent hloan
  rw [hengine, he] at he'
  cases he'
  exact ⟨e, he, hid, hopen, hlayout⟩

/-- The books count at least as many loans as there are. -/
theorem countP_le (h : Ledger w out) (b : Borrowing) :
    out.countP b.sameEntry ≤ (w.loan? b.manager b.id).elim 0 Loan.handles := by
  by_cases hnone : out.countP b.sameEntry = 0
  · omega
  · obtain ⟨b', hb', hsame⟩ := List.countP_pos_iff.mp (Nat.pos_of_ne_zero hnone)
    obtain ⟨hmanager, hid⟩ := Borrowing.sameEntry_iff.mp hsame
    obtain ⟨loan, -, hloan, -, hcount, -⟩ := h.counted b' hb'
    have hentry : b.sameEntry = b'.sameEntry := by
      funext b''
      simp [Borrowing.sameEntry, hmanager, hid]
    rw [hentry, hmanager, hid, hloan]
    exact hcount

theorem perm (h : Ledger w out) {out' : List Borrowing} (hperm : out.Perm out') : Ledger w out' where
  fresh := h.fresh
  lent := h.lent
  apart := h.apart
  counted b hb := by
    obtain ⟨loan, e, hloan, hengine, hcount, he⟩ := h.counted b (hperm.mem_iff.mpr hb)
    exact ⟨loan, e, hloan, hengine, by rwa [← hperm.countP_eq], he⟩

/-- The books still cover what is borrowed if less is borrowed. -/
theorem tail (h : Ledger w (b :: out)) : Ledger w out where
  fresh := h.fresh
  lent := h.lent
  apart := h.apart
  counted b' hb' := by
    obtain ⟨loan, e, hloan, hengine, hcount, he⟩ := h.counted b' (List.mem_cons_of_mem b hb')
    have hless := (List.sublist_cons_self b out).countP_le (p := b'.sameEntry)
    exact ⟨loan, e, hloan, hengine, Nat.le_trans hless hcount, he⟩

theorem steady (h : Ledger w out) (hw : Steady w w') : Ledger w' out where
  fresh := hw.fresh h.fresh
  lent hloan := by
    rw [hw.loans] at hloan
    obtain ⟨hhandles, e, he, hid, hopen⟩ := h.lent hloan
    obtain ⟨e', he', hid', -, hclosed⟩ := hw.engines he
    exact ⟨hhandles, e', he', hid'.trans hid, hclosed.trans hopen⟩
  apart := (h.booked.steady hw).apart
  counted b hb := by
    obtain ⟨loan, e, hloan, hengine, hcount, he, hlayout⟩ := h.counted b hb
    obtain ⟨e', he', -, hoptions, -⟩ := hw.engines he
    exact ⟨loan, e', (hw.loans _ _).trans hloan, hengine, hcount, he', by rwa [hoptions]⟩

end Ledger

/-! ## Loans -/

section Loans

variable {w w' : World} {out : List Borrowing} {ref : ManagerRef} {id : String} {options : Options}
  {engine : EngineRef}

/-- What is lent is open, and it is the store that was asked for. -/
theorem Ledger.engine_of_lends (h : Ledger w out) (hw : Lends w ref id options engine w') :
    ∃ e, w'.engines.get? engine = some e ∧ e.id = id ∧ e.isClosed = false ∧
      e.options.sameLayout options = true := by
  obtain ⟨e, he, hid, hlayout⟩ := h.booked.engine_of_lends hw
  refine ⟨e, he, hid, ?_, hlayout⟩
  cases hw.source with
  | again hloan hengine _ _ hengines =>
      obtain ⟨-, e', he', -, hopen⟩ := h.lent hloan
      rw [hengine, ← hengines, he] at he'
      cases he'
      exact hopen
  | first _ _ _ hopens hengines =>
      rw [hengines, SortedMap.get?_insert, if_pos rfl] at he
      cases he
      exact hopens.engine.2.2

theorem Ledger.lends (h : Ledger w out) (hw : Lends w ref id options engine w') :
    Ledger w' ({ manager := ref, id, options, engine } :: out) := by
  obtain ⟨e, he, hid, hopen, hlayout⟩ := h.engine_of_lends hw
  constructor
  case fresh => exact hw.fresh h.fresh
  case lent =>
    intro ref' id' loan hloan
    rcases hw.loan_cases hloan with ⟨⟨-, hname⟩, hengine, hpos⟩ | hold
    · exact ⟨hpos, e, by rw [hengine, he], hid.trans hname.symm, hopen⟩
    · obtain ⟨hpos, e', he', hid', hopen'⟩ := h.lent hold
      exact ⟨hpos, e', hw.get?_engines h.fresh he', hid', hopen'⟩
  case apart => exact (h.booked.lends hw).apart
  case counted =>
    intro b hb
    have hcount := h.countP_le b
    rw [List.countP_cons]
    rcases List.mem_cons.mp hb with rfl | hb
    · refine ⟨_, e, hw.loan, rfl, ?_, he, hlayout⟩
      rw [if_pos (Borrowing.sameEntry_iff.mpr ⟨rfl, rfl⟩)]
      exact Nat.succ_le_succ hcount
    obtain ⟨loan, e', hloan, hengine, hcount', he', hlayout'⟩ := h.counted b hb
    have he'' := hw.get?_engines h.fresh he'
    by_cases hentry : b.manager = ref ∧ b.id = id
    -- The entry was there before, and so the same engine is lent once more.
    · obtain ⟨rfl, rfl⟩ := hentry
      refine ⟨_, e', hw.loan, ?_, ?_, he'', hlayout'⟩
      · cases hw.source with
        | again hloan' hengine' =>
            rw [hloan] at hloan'
            cases hloan'
            exact hengine'.symm.trans hengine
        | first hnone =>
            rw [hloan] at hnone
            cases hnone
      · have hself : b.sameEntry { manager := b.manager, id := b.id, options, engine } = true :=
          Borrowing.sameEntry_iff.mpr ⟨rfl, rfl⟩
        rw [if_pos hself]
        exact Nat.succ_le_succ hcount
    · refine ⟨loan, e', (hw.loans hentry).trans hloan, hengine, ?_, he'', hlayout'⟩
      rw [if_neg fun hsame => hentry (Borrowing.sameEntry_iff.mp hsame)]
      exact hcount'

end Loans

/-! ## Returns -/

theorem Ledger.returns {w w' : World} {out : List Borrowing} {b : Borrowing} (h : Ledger w (b :: out))
    (hw : Returns w b.manager b.id b.engine w') : Ledger w' out := by
  obtain ⟨loan, hloan, hengine, hleft⟩ := hw.loan
  constructor
  case fresh => exact hw.fresh h.fresh
  case lent =>
    intro ref id loan' hloan'
    obtain ⟨hpos, e', he', hid'⟩ := (h.booked.returns hw).lent hloan'
    refine ⟨hpos, e', he', hid', ?_⟩
    obtain ⟨old, hold, hsame⟩ := hw.exists_loan hloan'
    obtain ⟨-, e, he, -, hopen⟩ := h.lent hold
    rw [hsame] at he
    rcases hw.engines he with hkept | ⟨hclosed, hnone, -⟩
    · rw [he'] at hkept
      cases hkept
      exact hopen
    -- An engine is closed only with the last loan of its entry, and that entry is gone.
    · obtain ⟨rfl, rfl⟩ :=
        h.booked.entry_eq hold hloan (hsame.trans (hclosed.trans hengine.symm))
      rw [hnone] at hloan'
      cases hloan'
  case apart => exact (h.booked.returns hw).apart
  case counted =>
    intro b' hb'
    obtain ⟨loan', e, hloan', hengine', hcount, he, hlayout⟩ := h.counted b' (List.mem_cons_of_mem b hb')
    have hkept := hw.engines he
    rw [List.countP_cons] at hcount
    by_cases hentry : b'.manager = b.manager ∧ b'.id = b.id
    -- The one that stays is another loan of the same entry than the one that is returned.
    · rw [if_pos (Borrowing.sameEntry_iff.mpr hentry)] at hcount
      rw [hentry.1, hentry.2, hloan] at hloan'
      cases hloan'
      have hself : 0 < out.countP b'.sameEntry :=
        List.countP_pos_iff.mpr ⟨b', hb', Borrowing.sameEntry_iff.mpr ⟨rfl, rfl⟩⟩
      rw [if_pos (by omega)] at hleft
      refine ⟨{ loan with handles := loan.handles - 1 }, e, by rw [hentry.1, hentry.2, hleft],
        hengine', Nat.le_sub_one_of_lt hcount, ?_, hlayout⟩
      rcases hkept with hkept | ⟨-, hnone, -⟩
      · exact hkept
      · rw [hleft] at hnone
        cases hnone
    · rw [if_neg fun hsame => hentry (Borrowing.sameEntry_iff.mp hsame)] at hcount
      have hloan'' := (hw.loans hentry).trans hloan'
      rcases hkept with hkept | ⟨-, -, hkept⟩
      · exact ⟨loan', e, hloan'', hengine', hcount, hkept, hlayout⟩
      · exact ⟨loan', e.close, hloan'', hengine', hcount, hkept, hlayout⟩

/-! ## What depots have borrowed -/

/-- What is taken from all depots is taken from the one that is set and from the others. -/
theorem perm_filterMap_setDepot {β : Type} (f : Depot → Option β) (w : World) (name : String)
    (d : Depot) :
    ((w.setDepot name d).depots.values.filterMap f).Perm
      ((f d).toList ++ (w.depots.erase name).values.filterMap f) := by
  have hentries := (SortedMap.perm_entries_insert w.depots name d).map (·.2)
  have hperm := hentries.filterMap f
  rw [List.map_cons, List.filterMap_cons] at hperm
  cases hd : f d with
  | none =>
      rw [hd] at hperm
      exact hperm
  | some b =>
      rw [hd] at hperm
      exact hperm

theorem perm_filterMap_depots {β : Type} (f : Depot → Option β) (w : World) (name : String) :
    (w.depots.values.filterMap f).Perm
      (((w.depots.get? name).bind f).toList ++ (w.depots.erase name).values.filterMap f) := by
  cases hd : w.depots.get? name with
  | none =>
      rw [SortedMap.erase_of_get? hd]
      exact .refl _
  | some d =>
      have hsame : w.setDepot name d = w := by
        unfold setDepot
        rw [SortedMap.insert_of_get? hd]
      have hperm := perm_filterMap_setDepot f w name d
      rwa [hsame] at hperm

/-- What the depots of a world have borrowed. -/
def borrowings (w : World) : List Borrowing :=
  w.depots.values.filterMap Depot.borrowing?

/-- What all depots but one have borrowed. -/
def otherBorrowings (w : World) (name : String) : List Borrowing :=
  (w.depots.erase name).values.filterMap Depot.borrowing?

section Borrowings

variable {w : World} {name : String} {d : Depot}

theorem borrowings_setDepot (w : World) (name : String) (d : Depot) :
    (w.setDepot name d).borrowings.Perm (d.borrowing?.toList ++ w.otherBorrowings name) :=
  perm_filterMap_setDepot Depot.borrowing? w name d

theorem borrowings_perm (w : World) (name : String) :
    w.borrowings.Perm
      (((w.depots.get? name).bind Depot.borrowing?).toList ++ w.otherBorrowings name) :=
  perm_filterMap_depots Depot.borrowing? w name

theorem mem_borrowings {b : Borrowing} (hd : w.depots.get? name = some d)
    (hb : d.borrowing? = some b) : b ∈ w.borrowings := by
  refine (borrowings_perm w name).mem_iff.mpr (List.mem_append_left _ ?_)
  simp [hd, hb]

theorem SameNames.borrowings {w' : World} (h : SameNames w w') : w'.borrowings = w.borrowings := by
  unfold World.borrowings
  rw [h.depots]

theorem SameNames.otherBorrowings {w' : World} (h : SameNames w w') (name : String) :
    w'.otherBorrowings name = w.otherBorrowings name := by
  unfold World.otherBorrowings
  rw [h.depots]

end Borrowings

/-! ## The life of a depot -/

section Life

variable {w w' : World} {out : List Borrowing} {d : Depot}

theorem Refused.steady (h : Refused w w') : Steady w w' ∧ SameNames w w' := by
  obtain ⟨disk, -, rfl⟩ := h.exists_extends
  exact ⟨.of_eq rfl rfl rfl, rfl, rfl, rfl⟩

/-- A depot that is opened borrows, and one that cannot be opened does not. -/
theorem ensures_start_ledger (h : Ledger w (d.borrowing?.toList ++ out)) :
    (start d).Ensures w
      (fun p w' => Ledger w' (p.borrowing?.toList ++ out) ∧ SameNames w w')
      fun _ w' => Ledger w' (d.borrowing?.toList ++ out) ∧ SameNames w w' := by
  unfold start
  split
  · exact ensures_pure ⟨h, .refl w⟩
  · rename_i hphase
    rw [Depot.borrowing?_of_handle? (Depot.handle?_eq_none hphase)] at h ⊢
    refine Ensures.bind (P := fun _ w' => Ledger w' out ∧ SameNames w w')
      (ensures_modify ⟨h.steady (steady_modifyManager fun _ => rfl), sameNames_modifyManager _ _ _⟩) ?_
    intro _ w₁ hw₁
    obtain ⟨hledger, hnames⟩ := hw₁
    refine Ensures.bind
      (ensures_mapError ((ensures_lend d.manager d.id d.config.options w₁).weaken
        (fun _ _ h => h.lends) ?_)) ?_
    · intro err w₂ hrefused
      obtain ⟨hsteady, hnames'⟩ := hrefused.steady
      exact ⟨hledger.steady hsteady, hnames.trans hnames'⟩
    · intro handle w₂ hlends
      exact ensures_pure ⟨hledger.lends hlends, hnames.trans hlends.ways.names⟩

/-- A depot that is closed has given back what it had borrowed. -/
theorem ledger_stop (h : Ledger w (d.borrowing?.toList ++ out)) :
    Ledger ((stop d).run w).2 out ∧ SameNames w ((stop d).run w).2 := by
  unfold stop
  cases hphase : d.phase with
  | uninitialized =>
      rw [Depot.borrowing?_of_handle? (Depot.handle?_eq_none (by simp [hphase]))] at h
      exact ⟨h, .refl w⟩
  | closed =>
      rw [Depot.borrowing?_of_handle? (Depot.handle?_eq_none (by simp [hphase]))] at h
      exact ⟨h, .refl w⟩
  | ready handle =>
      rw [Depot.borrowing?_of_ready hphase] at h
      obtain ⟨e, he, hid, -⟩ := h.engine List.mem_cons_self
      refine Ensures.exec_snd (a := reclaim d.manager handle)
        (P := fun w' => Ledger w' out ∧ SameNames w w') ?_
      refine (ensures_reclaim_books d.manager handle w).weaken ?_ ?_
      · intro _ w' hreturned
        obtain ⟨e', he', hreturns⟩ := hreturned
        rw [show w.engines.get? handle.engine = some e from he] at he'
        cases he'
        rw [hid] at hreturns
        exact ⟨h.returns hreturns, hreturns.ways.names⟩
      · intro err w' hrefused
        exact ⟨(h.steady hrefused.1.steady).tail, hrefused.1.ways.names⟩

end Life

end World

end ObjectStore
