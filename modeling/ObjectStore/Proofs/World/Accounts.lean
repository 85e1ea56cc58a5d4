import ObjectStore.Proofs.Engine.Place
import ObjectStore.Proofs.World.Books

/-!
# Books that add up

Every entry of a manager's books counts at least one loan of an engine that is there, and it names the
id of that engine; no engine is on loan from two managers. That holds in every world, whoever lends,
returns, writes or closes, and so a loan and its return leave all books as they were.

Main statements: `Booked.lends`, `Booked.returns` and `Booked.loans_of_round`.
-/

namespace ObjectStore.World

open ObjectStore.Action

/-! ## Steps that leave the books as they are -/

/-- The books stay as they are, and every engine stays what it is, whatever it holds. -/
structure Steady (w w' : World) : Prop where
  fresh : Fresh w → Fresh w'
  loans : ∀ ref id, w'.loan? ref id = w.loan? ref id
  engines : ∀ {r e}, w.engines.get? r = some e →
    ∃ e', w'.engines.get? r = some e' ∧ e'.id = e.id ∧ e'.options = e.options ∧
      e'.isClosed = e.isClosed

theorem Steady.refl (w : World) : Steady w w :=
  ⟨id, fun _ _ => rfl, fun he => ⟨_, he, rfl, rfl, rfl⟩⟩

theorem Steady.trans {w w' w'' : World} (h : Steady w w') (h' : Steady w' w'') : Steady w w'' where
  fresh hw := h'.fresh (h.fresh hw)
  loans ref id := (h'.loans ref id).trans (h.loans ref id)
  engines he := by
    obtain ⟨e', he', hid, hoptions, hclosed⟩ := h.engines he
    obtain ⟨e'', he'', hid', hoptions', hclosed'⟩ := h'.engines he'
    exact ⟨e'', he'', hid'.trans hid, hoptions'.trans hoptions, hclosed'.trans hclosed⟩

theorem SameBooks.steady {w w' : World} (h : SameBooks w w') : Steady w w' where
  fresh := h.fresh
  loans := h.loans
  engines he := ⟨_, h.engines ▸ he, rfl, rfl, rfl⟩

/-- Names and devices do not matter for the books. -/
theorem Steady.of_eq {w w' : World} (hnext : w'.next = w.next) (hengines : w'.engines = w.engines)
    (hmanagers : w'.managers = w.managers) : Steady w w' where
  fresh h r hr := by
    rw [hengines, hmanagers]
    exact h r (hnext ▸ hr)
  loans ref id := by
    unfold loan?
    rw [hmanagers]
  engines he := ⟨_, hengines ▸ he, rfl, rfl, rfl⟩

/-- A manager may be changed apart from its loans. -/
theorem steady_modifyManager {w : World} {ref : ManagerRef} {f : Manager → Manager}
    (hf : ∀ m, (f m).loans = m.loans) : Steady w (w.modifyManager ref f) where
  fresh := fresh_modifyManager
  loans ref' id := by
    rw [loan?_modifyManager]
    split
    · rename_i heq
      simp only [hf, heq]
      rfl
    · rfl
  engines he := ⟨_, (engines_modifyManager w ref f) ▸ he, rfl, rfl, rfl⟩

/-- An accepted batch changes what an engine holds, and nothing else about it. -/
theorem steady_of_write {w : World} {r : EngineRef} {batch : Batch} {e e' : Engine} {disk : Disk}
    (he : w.engines.get? r = some e) (hwrite : e.write batch w.disk = .ok (e', disk)) :
    Steady w { w with engines := w.engines.insert r e', disk } := by
  obtain ⟨hopen, hopen', -, -⟩ := Engine.table_of_write hwrite
  obtain ⟨hid, hoptions⟩ := Engine.id_of_write hwrite
  have hget (r' : EngineRef) :
      (w.engines.insert r e').get? r' = if r' = r then some e' else w.engines.get? r' :=
    SortedMap.get?_insert w.engines r e' r'
  constructor
  case fresh =>
    intro hfresh r' hr'
    obtain ⟨hengine, hmanager⟩ := hfresh r' hr'
    -- The engine that was written to is there already.
    have hne : r' ≠ r := by
      intro heq
      rw [heq, he] at hengine
      cases hengine
    exact ⟨(hget r').trans ((if_neg hne).trans hengine), hmanager⟩
  case loans => exact fun _ _ => rfl
  case engines =>
    intro r' e₀ he₀
    show ∃ e'', (w.engines.insert r e').get? r' = some e'' ∧ _
    rw [hget]
    split
    · rename_i heq
      rw [heq, he] at he₀
      cases he₀
      exact ⟨e', rfl, hid, hoptions, hopen'.trans hopen.symm⟩
    · exact ⟨e₀, he₀, rfl, rfl, rfl⟩

/-! ## The invariant -/

/-- The books add up. -/
structure Booked (w : World) : Prop where
  fresh : Fresh w
  /-- What is on loan is there, and it is the store that the entry names. -/
  lent : ∀ {ref id loan}, w.loan? ref id = some loan →
    0 < loan.handles ∧ ∃ e, w.engines.get? loan.engine = some e ∧ e.id = id
  /-- No engine is on loan from two managers. -/
  apart : ∀ {ref ref' id id' loan loan'}, w.loan? ref id = some loan →
    w.loan? ref' id' = some loan' → loan.engine = loan'.engine → ref = ref'

/-- Two entries with the same engine are one entry. -/
theorem Booked.entry_eq {w : World} (h : Booked w) {ref ref' : ManagerRef} {id id' : String}
    {loan loan' : Loan} (hloan : w.loan? ref id = some loan) (hloan' : w.loan? ref' id' = some loan')
    (hengine : loan.engine = loan'.engine) : ref = ref' ∧ id = id' := by
  obtain ⟨-, e, he, hid⟩ := h.lent hloan
  obtain ⟨-, e', he', hid'⟩ := h.lent hloan'
  rw [hengine, he'] at he
  cases he
  exact ⟨h.apart hloan hloan' hengine, hid.symm.trans hid'⟩

theorem Booked.steady {w w' : World} (h : Booked w) (hw : Steady w w') : Booked w' where
  fresh := hw.fresh h.fresh
  lent hloan := by
    rw [hw.loans] at hloan
    obtain ⟨hpos, e, he, hid⟩ := h.lent hloan
    obtain ⟨e', he', hid', -⟩ := hw.engines he
    exact ⟨hpos, e', he', hid'.trans hid⟩
  apart hloan hloan' := by
    rw [hw.loans] at hloan hloan'
    exact h.apart hloan hloan'

/-! ## Loans -/

section Loans

variable {w w' : World} {ref : ManagerRef} {id : String} {options : Options} {engine : EngineRef}

/-- A loan leaves all engines as they are. -/
theorem Lends.get?_engines (h : Lends w ref id options engine w') (hfresh : Fresh w) {r : EngineRef}
    {e : Engine} (he : w.engines.get? r = some e) : w'.engines.get? r = some e := by
  cases h.source with
  | again _ _ _ _ hengines => rw [hengines, he]
  | first _ hnext _ _ hengines =>
      -- The reference of the new engine belonged to no engine before.
      have hne : r ≠ engine := by
        rintro rfl
        rw [hnext, (hfresh w.next (Nat.le_refl _)).1] at he
        cases he
      rw [hengines, SortedMap.get?_insert, if_neg hne, he]

/-- What is lent is the store that was asked for. -/
theorem Booked.engine_of_lends (h : Booked w) (hw : Lends w ref id options engine w') :
    ∃ e, w'.engines.get? engine = some e ∧ e.id = id ∧ e.options.sameLayout options = true := by
  cases hw.source with
  | @again loan e hloan hengine he hlayout hengines =>
      obtain ⟨-, e', he', hid⟩ := h.lent hloan
      rw [hengine, he] at he'
      cases he'
      exact ⟨e, by rw [hengines, he], hid, hlayout⟩
  | @first m e _ _ _ hopens hengines =>
      obtain ⟨hid, hoptions, -⟩ := hopens.engine
      refine ⟨e, by simp [hengines, SortedMap.get?_insert], hid, ?_⟩
      rw [hoptions]
      simp [Options.sameLayout]

/-- The engine that is lent is on loan from no other manager. -/
theorem Booked.apart_of_lends (h : Booked w) (hw : Lends w ref id options engine w')
    {ref' : ManagerRef} {id' : String} {loan' : Loan} (hloan' : w.loan? ref' id' = some loan')
    (hengine : loan'.engine = engine) : ref' = ref := by
  cases hw.source with
  | again hloan hengine' => exact h.apart hloan' hloan (hengine.trans hengine'.symm)
  | first _ hnext =>
      obtain ⟨-, e, he, -⟩ := h.lent hloan'
      rw [hengine, hnext, (h.fresh w.next (Nat.le_refl _)).1] at he
      cases he

/-- Every entry is the one that the loan is under, or it was there before. -/
theorem Lends.loan_cases (h : Lends w ref id options engine w') {ref' : ManagerRef} {id' : String}
    {loan : Loan} (hloan : w'.loan? ref' id' = some loan) :
    (ref' = ref ∧ id' = id) ∧ loan.engine = engine ∧ 0 < loan.handles ∨
      w.loan? ref' id' = some loan := by
  by_cases hentry : ref' = ref ∧ id' = id
  · rw [hentry.1, hentry.2, h.loan] at hloan
    cases hloan
    exact .inl ⟨hentry, rfl, Nat.succ_pos _⟩
  · rw [h.loans hentry] at hloan
    exact .inr hloan

/-- What was on loan is on loan still, with the engine that it had. -/
theorem Lends.kept_loan (h : Lends w ref id options engine w') {ref' : ManagerRef} {id' : String}
    {loan : Loan} (hloan : w.loan? ref' id' = some loan) :
    ∃ loan', w'.loan? ref' id' = some loan' ∧ loan'.engine = loan.engine := by
  by_cases hentry : ref' = ref ∧ id' = id
  · obtain ⟨rfl, rfl⟩ := hentry
    refine ⟨_, h.loan, ?_⟩
    cases h.source with
    | again hloan' hengine =>
        rw [hloan] at hloan'
        cases hloan'
        exact hengine.symm
    | first hnone =>
        rw [hloan] at hnone
        cases hnone
  · exact ⟨loan, (h.loans hentry).trans hloan, rfl⟩

theorem Booked.lends (h : Booked w) (hw : Lends w ref id options engine w') : Booked w' := by
  obtain ⟨e, he, hid, -⟩ := h.engine_of_lends hw
  constructor
  case fresh => exact hw.fresh h.fresh
  case lent =>
    intro ref' id' loan hloan
    rcases hw.loan_cases hloan with ⟨⟨-, hname⟩, hengine, hpos⟩ | hold
    · exact ⟨hpos, e, by rw [hengine, he], hid.trans hname.symm⟩
    · obtain ⟨hpos, e', he', hid'⟩ := h.lent hold
      exact ⟨hpos, e', hw.get?_engines h.fresh he', hid'⟩
  case apart =>
    intro ref₁ ref₂ id₁ id₂ loan₁ loan₂ hloan₁ hloan₂ hsame
    rcases hw.loan_cases hloan₁ with ⟨⟨hmanager₁, -⟩, hengine₁, -⟩ | hold₁
    · rcases hw.loan_cases hloan₂ with ⟨⟨hmanager₂, -⟩, -⟩ | hold₂
      · exact hmanager₁.trans hmanager₂.symm
      · exact hmanager₁.trans (h.apart_of_lends hw hold₂ (hsame.symm.trans hengine₁)).symm
    · rcases hw.loan_cases hloan₂ with ⟨⟨hmanager₂, -⟩, hengine₂, -⟩ | hold₂
      · exact (h.apart_of_lends hw hold₁ (hsame.trans hengine₂)).trans hmanager₂.symm
      · exact h.apart hold₁ hold₂ hsame

end Loans

/-! ## Returns -/

section Returns

variable {w w' : World} {ref : ManagerRef} {id : String} {engine : EngineRef}

/-- Every entry that is left was there before, with the same engine. -/
theorem Returns.exists_loan (h : Returns w ref id engine w') {ref' : ManagerRef} {id' : String}
    {loan' : Loan} (hloan' : w'.loan? ref' id' = some loan') :
    ∃ loan, w.loan? ref' id' = some loan ∧ loan.engine = loan'.engine := by
  by_cases hentry : ref' = ref ∧ id' = id
  · obtain ⟨loan, hloan, -, hleft⟩ := h.loan
    rw [hentry.1, hentry.2] at hloan' ⊢
    refine ⟨loan, hloan, ?_⟩
    rw [hloan'] at hleft
    split at hleft
    · cases hleft
      rfl
    · cases hleft
  · exact ⟨loan', (h.loans hentry).symm.trans hloan', rfl⟩

/-- A return takes no engine away, and it opens none. -/
theorem Returns.exists_engine (h : Returns w ref id engine w') {r : EngineRef} {e : Engine}
    (he : w.engines.get? r = some e) :
    ∃ e', w'.engines.get? r = some e' ∧ e'.id = e.id ∧ (e.isClosed = true → e'.isClosed = true) := by
  rcases h.engines he with hsame | ⟨-, -, hclosed⟩
  · exact ⟨e, hsame, rfl, fun h => h⟩
  · exact ⟨e.close, hclosed, rfl, fun _ => rfl⟩

theorem Booked.returns (h : Booked w) (hw : Returns w ref id engine w') : Booked w' := by
  constructor
  case fresh => exact hw.fresh h.fresh
  case lent =>
    intro ref' id' loan' hloan'
    obtain ⟨old, hold, hsame⟩ := hw.exists_loan hloan'
    obtain ⟨hpos, e, he, hid⟩ := h.lent hold
    have hengine : ∃ e', w'.engines.get? loan'.engine = some e' ∧ e'.id = id' := by
      rw [hsame] at he
      obtain ⟨e', he', hid', -⟩ := hw.exists_engine he
      exact ⟨e', he', hid'.trans hid⟩
    refine ⟨?_, hengine⟩
    by_cases hentry : ref' = ref ∧ id' = id
    · obtain ⟨loan, -, -, hleft⟩ := hw.loan
      rw [hentry.1, hentry.2, hleft] at hloan'
      split at hloan'
      · rename_i hmore
        cases hloan'
        exact Nat.sub_pos_of_lt hmore
      · cases hloan'
    · rw [hw.loans hentry] at hloan'
      exact (h.lent hloan').1
  case apart =>
    intro ref₁ ref₂ id₁ id₂ loan₁ loan₂ hloan₁ hloan₂ hsame
    obtain ⟨old₁, hold₁, hengine₁⟩ := hw.exists_loan hloan₁
    obtain ⟨old₂, hold₂, hengine₂⟩ := hw.exists_loan hloan₂
    exact h.apart hold₁ hold₂ (hengine₁.trans (hsame.trans hengine₂.symm))

/-! ## A loan and its return -/

variable {w₁ w₂ : World} {options : Options}

/-- A loan and its return leave all books as they were, whatever else is done in between. -/
theorem Booked.loans_of_round (h : Booked w) (hlends : Lends w ref id options engine w₁)
    (hsteady : ∀ ref id, w₂.loan? ref id = w₁.loan? ref id) (hreturns : Returns w₂ ref id engine w')
    (ref' : ManagerRef) (id' : String) : w'.loan? ref' id' = w.loan? ref' id' := by
  obtain ⟨loan, hloan, hengine, hleft⟩ := hreturns.loan
  rw [hsteady, hlends.loan] at hloan
  cases hloan
  by_cases hentry : ref' = ref ∧ id' = id
  · rw [hentry.1, hentry.2, hleft]
    cases hbefore : w.loan? ref id with
    | none => rfl
    | some loan =>
        -- The loan was there before, and its engine is the one that was lent.
        obtain ⟨hpos, -⟩ := h.lent hbefore
        cases hlends.source with
        | again hsame hengine =>
            rw [hbefore] at hsame
            cases hsame
            have hmore : 1 < loan.handles + 1 := Nat.succ_lt_succ hpos
            simp [hmore, ← hengine]
        | first hnone =>
            rw [hbefore] at hnone
            cases hnone
  · rw [hreturns.loans hentry, hsteady, hlends.loans hentry]

/-- An engine is closed with a return only if it was opened for the loan. -/
theorem Booked.engines_of_round (h : Booked w) (hlends : Lends w ref id options engine w₁)
    (hsteady : ∀ ref id, w₂.loan? ref id = w₁.loan? ref id) (hreturns : Returns w₂ ref id engine w')
    {r : EngineRef} {e e₂ : Engine} (he : w.engines.get? r = some e)
    (he₂ : w₂.engines.get? r = some e₂) : w'.engines.get? r = some e₂ := by
  rcases hreturns.engines he₂ with hsame | ⟨heq, hnone, -⟩
  · exact hsame
  · rw [h.loans_of_round hlends hsteady hreturns] at hnone
    cases hlends.source with
    | again hsome =>
        rw [hnone] at hsome
        cases hsome
    | first _ hnext =>
        rw [heq, hnext, (h.fresh w.next (Nat.le_refl _)).1] at he
        cases he

end Returns

end ObjectStore.World
