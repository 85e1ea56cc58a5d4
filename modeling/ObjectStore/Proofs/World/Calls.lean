import ObjectStore.Proofs.World.Moves

/-!
# What calls through handles do to a world

Every call through a handle is a number of moves under the same names: the guard counts it, and the
engine applies the batch, answers the scan or refuses. What is kept track of over such calls, be it that
the world is consistent or how many batches were committed, is kept track of over all of them once it is
over these steps.

Main statements: `Tracks.lawful` and `lawful_keyValue`, that a handle is a store that keeps a table.
-/

namespace ObjectStore.World

open ObjectStore.Action

/-- Moves under the same names. -/
structure Evolves (w w' : World) : Prop where
  moves : Moves w w'
  names : SameNames w w'

namespace Evolves

variable {w w' w'' : World}

theorem refl (w : World) : Evolves w w := ⟨.refl, .refl w⟩

theorem trans (h : Evolves w w') (h' : Evolves w' w'') : Evolves w w'' :=
  ⟨h.moves.trans h'.moves, h.names.trans h'.names⟩

theorem of_tame (h : Tame w w') (hnames : SameNames w w') : Evolves w w' := ⟨h.moves, hnames⟩

end Evolves

/-! ## Switches and counters -/

/-- At most the switches and counters of one guarded manager change. -/
inductive SetsFaults (w : World) : World → Prop where
  | refl : SetsFaults w w
  | set {ref : ManagerRef} {m : Manager} {guard : Guard} (faults : Faults) :
      w.managers.get? ref = some m → m.guard = some guard →
      SetsFaults w (w.modifyManager ref fun m => { m with guard := some { guard with faults } })

namespace SetsFaults

variable {w w' : World}

theorem sameNames (h : SetsFaults w w') : SameNames w w' := by
  cases h with
  | refl => exact .refl w
  | set faults hm hguard => exact sameNames_modifyManager w _ _

theorem engines_eq (h : SetsFaults w w') : w'.engines = w.engines := by
  cases h with
  | refl => rfl
  | set faults hm hguard => exact engines_modifyManager w _ _

theorem disk_eq (h : SetsFaults w w') : w'.disk = w.disk := by
  cases h with
  | refl => rfl
  | set faults hm hguard => exact disk_modifyManager w _ _

/-- Every manager holds what it held before. -/
theorem holds_eq (h : SetsFaults w w') (ref : ManagerRef) (r : EngineRef) :
    (w'.managers.get? ref).map (fun m => m.holds r) =
      (w.managers.get? ref).map fun m => m.holds r := by
  cases h with
  | refl => rfl
  | @set ref' m guard faults hm hguard =>
      rw [get?_modifyManager]
      split
      · rename_i heq
        subst heq
        rw [hm]
        simp [Manager.holds, hguard]
      · rfl

theorem isEngineHeld_of_holds_eq {w w' : World} (hnames : SameNames w w')
    (hholds : ∀ ref r, (w'.managers.get? ref).map (fun m => m.holds r) =
      (w.managers.get? ref).map fun m => m.holds r) {r : EngineRef}
    (hr : w'.isEngineHeld r = true) : w.isEngineHeld r = true := by
  -- Under the same names only the loans and wrappers of managers count.
  rcases hnames.isEngineHeld hr with hold | ⟨ref, m, hm, hheld, hr⟩
  · exact hold
  · have hsome := hholds ref r
    rw [hm, Option.map_some] at hsome
    obtain ⟨m', hm', heq⟩ := Option.map_eq_some_iff.mp hsome.symm
    exact isEngineHeld_of_manager hm' hheld (heq.trans hr)

/-- The same engines are held. -/
theorem isEngineHeld_iff (h : SetsFaults w w') {r : EngineRef} :
    w'.isEngineHeld r = true ↔ w.isEngineHeld r = true := by
  have hnames := h.sameNames
  have hback : SameNames w' w :=
    ⟨hnames.depots.symm, hnames.managerNames.symm, hnames.handleNames.symm⟩
  constructor
  · exact isEngineHeld_of_holds_eq hnames h.holds_eq
  · exact isEngineHeld_of_holds_eq hback fun ref r => (h.holds_eq ref r).symm

theorem tame (h : SetsFaults w w') : Tame w w' :=
  .of_engines_eq h.disk_eq h.engines_eq h.isEngineHeld_iff.mp

theorem evolves (h : SetsFaults w w') : Evolves w w' :=
  .of_tame h.tame h.sameNames

end SetsFaults

theorem ensures_guardCall (handle : Handle) (call : EngineCall) (w : World) :
    (guardCall handle call).Ensures w (fun _ w' => SetsFaults w w') fun _ w' => SetsFaults w w' := by
  cases handle with
  | direct engine => exact ensures_pure .refl
  | wrapped serial manager engine =>
      refine Ensures.bind (P := fun w₁ w₂ => w₁ = w ∧ w₂ = w) (ensures_get ⟨rfl, rfl⟩) ?_
      rintro w₁ w₂ ⟨rfl, rfl⟩
      split
      · exact ensures_pure .refl
      · rename_i m hm
        -- Without a guard there is nothing to count and no switch.
        split
        · exact ensures_pure .refl
        · rename_i guard hguard
          refine Ensures.bind (P := fun _ w' => SetsFaults w₂ w')
            (ensures_set (.set _ hm hguard)) ?_
          rintro - w' hw'
          -- The call has been counted by now, whether it is blocked or not.
          split
          · exact ensures_throw hw'
          · exact ensures_pure hw'

/-! ## Engines behind handles -/

theorem ensures_engineOf (handle : Handle) (w : World) :
    (engineOf handle).Ensures w (fun e w' => w' = w ∧ w.engines.get? handle.engine = some e)
      fun _ w' => w' = w ∧ w.engines.get? handle.engine = none := by
  refine Ensures.bind (P := fun w₁ w₂ => w₁ = w ∧ w₂ = w) (ensures_get ⟨rfl, rfl⟩) ?_
  rintro w₁ w₂ ⟨rfl, rfl⟩
  split
  · rename_i e he
    exact ensures_pure ⟨rfl, he⟩
  · rename_i he
    exact ensures_throw ⟨rfl, he⟩

/-- A batch is applied by the engine or refused, and nothing else changes. -/
theorem ensures_write (handle : Handle) (batch : Batch) (w : World) :
    (write handle batch).Ensures w
      (fun _ w' => ∃ e e' disk, w.engines.get? handle.engine = some e ∧
        e.write batch w.disk = .ok (e', disk) ∧
        w' = { w with engines := w.engines.insert handle.engine e', disk })
      fun _ w' => w' = w := by
  refine Ensures.bind ((ensures_engineOf handle w).weaken (fun _ _ h => h) fun _ _ h => h.1) ?_
  rintro e w' ⟨rfl, he⟩
  refine Ensures.bind (P := fun w₁ w₂ => w₁ = w' ∧ w₂ = w') (ensures_get ⟨rfl, rfl⟩) ?_
  rintro w₁ w₂ ⟨rfl, rfl⟩
  split
  · exact ensures_throw rfl
  · rename_i e' disk hwrite
    exact ensures_set ⟨e, e', disk, he, hwrite, rfl⟩

/-- The table of the engine behind a handle. -/
def content (handle : Handle) (w : World) : Table :=
  ((w.engines.get? handle.engine).map Engine.table).getD ∅

theorem content_of_get? {handle : Handle} {w : World} {e : Engine}
    (h : w.engines.get? handle.engine = some e) : content handle w = e.table := by
  simp [content, h]

theorem SetsFaults.content_eq {w w' : World} (h : SetsFaults w w') (handle : Handle) :
    content handle w' = content handle w := by
  unfold content
  rw [h.engines_eq]

/-! ## Handles as stores of keys and values -/

/-- What is kept track of over the calls through a handle: `before` as long as the engine was only read,
and `after` once it has applied a batch that gives a safe table. -/
structure Tracks (handle : Handle) (before after : World → Prop) (safe : Table → Prop) : Prop where
  setsFaults {w w' : World} : before w → SetsFaults w w' → before w'
  accepted {w : World} {batch : Batch} {e e' : Engine} {disk : Disk} :
    before w → w.engines.get? handle.engine = some e → e.write batch w.disk = .ok (e', disk) →
      safe e'.table → after { w with engines := w.engines.insert handle.engine e', disk }
  after_of_before {w : World} : before w → after w

namespace Tracks

variable {handle : Handle} {before after : World → Prop} {safe : Table → Prop}

theorem changes_write (h : Tracks handle before after safe) {w : World} (hw : before w)
    {batch : Batch} (hsafe : safe ((content handle w).apply batch)) :
    KeyValue.Changes after (content handle) w ((content handle w).apply batch)
      (write handle batch) := by
  refine (ensures_write handle batch w).weaken ?_ ?_
  · rintro - w' ⟨e, e', disk, he, hwrite, rfl⟩
    have htable : e'.table = (content handle w).apply batch := by
      rw [content_of_get? he]
      exact (Engine.table_of_write hwrite).2.2.2
    have hself : (w.engines.insert handle.engine e').get? handle.engine = some e' := by
      simp [SortedMap.get?_insert]
    exact ⟨h.accepted hw he hwrite (htable ▸ hsafe), (content_of_get? hself).trans htable⟩
  · rintro - w' rfl
    exact ⟨h.after_of_before hw, rfl⟩

/-- A guarded call and a write after it. -/
theorem changes_guarded (h : Tracks handle before after safe) {w : World} (hw : before w)
    (call : EngineCall) {batch : Batch} (hsafe : safe ((content handle w).apply batch)) :
    KeyValue.Changes after (content handle) w ((content handle w).apply batch)
      (do
        guardCall handle call
        write handle batch) := by
  refine Ensures.bind ((ensures_guardCall handle call w).weaken (fun _ _ h => h) ?_) ?_
  · intro err w' hw'
    exact ⟨h.after_of_before (h.setsFaults hw hw'), hw'.content_eq handle⟩
  · intro _ w' hw'
    -- The count of the call leaves the table as it is.
    rw [← hw'.content_eq handle] at hsafe ⊢
    exact h.changes_write (h.setsFaults hw hw') hsafe

/-- A handle is a store that keeps a table. -/
theorem lawful (h : Tracks handle before after safe) :
    (keyValue handle).Lawful before after (content handle) safe where
  put es hw hsafe := h.changes_guarded hw .put hsafe
  delete keys hw hsafe := h.changes_guarded hw (.delete keys) hsafe
  scan {w} front hw := by
    refine Ensures.bind ((ensures_guardCall handle .scan w).weaken (fun _ _ h => h) ?_) ?_
    · intro err w' hw'
      exact ⟨h.setsFaults hw hw', hw'.content_eq handle⟩
    · intro _ w' hw'
      have hbefore := h.setsFaults hw hw'
      rw [← hw'.content_eq handle]
      refine Ensures.bind ((ensures_engineOf handle w').weaken (fun _ _ h => h) ?_) ?_
      · rintro err w'' ⟨rfl, -⟩
        exact ⟨hbefore, rfl⟩
      · rintro e w'' ⟨rfl, he⟩
        refine ensures_answer (fun es hes => ⟨?_, hbefore, rfl⟩) fun _ _ => ⟨hbefore, rfl⟩
        -- A scan that succeeds is one of the table, and a closed engine refuses.
        unfold Engine.scan at hes
        split at hes
        · cases hes
        · cases hes
          rw [content_of_get? he]
  after_of_before := h.after_of_before

end Tracks

/-- A handle is a store that keeps a table in every world, whatever becomes of everything else. -/
theorem lawful_anywhere (handle : Handle) :
    (keyValue handle).Lawful (fun _ => True) (fun _ => True) (content handle) fun _ => True :=
  Tracks.lawful
    { setsFaults := fun _ _ => trivial
      accepted := fun _ _ _ _ => trivial
      after_of_before := fun _ => trivial }

theorem Consistent.represented_content {w : World} (h : Consistent w) (handle : Handle) :
    (content handle w).Represented := by
  unfold content
  cases hget : w.engines.get? handle.engine with
  | none => exact Table.represented_empty
  | some e => exact h.represented hget

/-- A consistent world that has evolved from `w₀`, where the engine behind the handle is held. -/
structure Serves (w₀ : World) (handle : Handle) (w : World) : Prop where
  consistent : Consistent w
  evolves : Evolves w₀ w
  held : w.isEngineHeld handle.engine = true

theorem tracks_serves (w₀ : World) (handle : Handle) :
    Tracks handle (Serves w₀ handle) (Serves w₀ handle) Table.Represented where
  setsFaults h hw :=
    { consistent := h.consistent.tame hw.tame
      evolves := h.evolves.trans hw.evolves
      held := hw.isEngineHeld_iff.mpr h.held }
  accepted h he hwrite hrepresented :=
    have hmove := Move.write h.held he hwrite hrepresented
    { consistent := h.consistent.move hmove
      evolves := h.evolves.trans ⟨.single hmove, rfl, rfl, rfl⟩
      held := h.held }
  after_of_before h := h

/-- A handle whose engine is held is a store that keeps a table of objects. -/
theorem lawful_keyValue (w₀ : World) (handle : Handle) :
    (keyValue handle).Lawful (Serves w₀ handle) (Serves w₀ handle) (content handle)
      Table.Represented :=
  (tracks_serves w₀ handle).lawful

end ObjectStore.World
