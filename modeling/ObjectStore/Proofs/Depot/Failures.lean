import ObjectStore.Proofs.Depot.Calls
import ObjectStore.Proofs.Depot.Edits

/-!
# How refusals of a store come through

An operation on objects fails over what it was given, over what is stored, or because the store of keys
and values refuses a call. A refusal is passed on as it is, or its text follows the name of the step that
has failed. What is known of all refusals of a store is so known of what the operations tell of them.

Main statements: `refusesAs_of_act`, `refusesAs_get`, `refusesAs_getSummary` and `refusesAs_getAll`.
-/

namespace ObjectStore

/-- A failure of an operation over a store all of whose refusals are as `P` says. A composite operation
names the step that has failed. -/
inductive DepotError.CausedBy (P : StorageError → Prop) (steps : List String) : DepotError → Prop where
  | invalidParameters (reason : String) : CausedBy P steps (.invalidParameters reason)
  | unknown (reason : String) : CausedBy P steps (.unknown reason)
  | storage {cause : StorageError} : P cause → CausedBy P steps (.storage cause)
  | database {step : String} {err : DepotError} : step ∈ steps → CausedBy P steps err →
      CausedBy P steps (.database (step ++ err.message))

/-- What a composite change calls its steps. -/
def Access.Edit.steps : Edit → List String
  | .update o =>
    match o.metadata with
    | some m => [s!"delete {m.groupKey}: ", s!"put {m.groupKey}: "]
    | none => []
  | _ => []

namespace DepotError.CausedBy

variable {P : StorageError → Prop} {steps : List String} {err : DepotError}

theorem of_status (h : err.status = .invalidParameters ∨ err.status = .unknown) :
    err.CausedBy P steps := by
  cases err with
  | invalidParameters reason => exact .invalidParameters reason
  | unknown reason => exact .unknown reason
  | _ => rcases h with h | h <;> cases h

/-- No operation says of itself that a depot is not ready. -/
theorem ne_notReady (h : err.CausedBy P steps) : err.status ≠ .notReady := by
  cases h <;> exact (nomatch ·)

end DepotError.CausedBy

variable {σ : Type}

/-- A store that refuses only as `P` says, as long as its state is good. -/
structure KeyValue.RefusesOnly (kv : KeyValue σ) (good : σ → Prop) (P : StorageError → Prop) : Prop where
  put {s : σ} (es : List Entry) : good s →
    (kv.put es).Ensures s (fun _ s' => good s') fun cause s' => P cause ∧ good s'
  delete {s : σ} (keys : List Bytes) : good s →
    (kv.delete keys).Ensures s (fun _ s' => good s') fun cause s' => P cause ∧ good s'
  scan {s : σ} (front : Bytes) : good s →
    (kv.scan front).Ensures s (fun _ s' => good s') fun cause s' => P cause ∧ good s'

namespace Access

/-- An operation that fails only as `P` says, from every good state. -/
def RefusesAs {α : Type} (good : σ → Prop) (P : StorageError → Prop) (steps : List String)
    (act : Action σ DepotError α) : Prop :=
  ∀ ⦃s⦄, good s → act.Ensures s (fun _ s' => good s') fun err s' => err.CausedBy P steps ∧ good s'

variable {kv : KeyValue σ} {codec : DataCodec} {good : σ → Prop} {P : StorageError → Prop}
  {steps : List String}

section Steps

variable {α β : Type}

theorem refusesAs_storage {call : Action σ StorageError α}
    (h : ∀ {s}, good s → call.Ensures s (fun _ s' => good s') fun cause s' => P cause ∧ good s') :
    RefusesAs good P steps (call.mapError .storage) := by
  intro s hs
  exact Action.ensures_mapError ((h hs).weaken (fun _ _ h => h) fun _ _ h => ⟨.storage h.1, h.2⟩)

theorem refusesAs_pure (a : α) : RefusesAs good P steps (pure a) := fun _ hs => Action.ensures_pure hs

theorem RefusesAs.bind {act : Action σ DepotError α} {next : α → Action σ DepotError β}
    (h : RefusesAs good P steps act) (hnext : ∀ a, RefusesAs good P steps (next a)) :
    RefusesAs good P steps (act >>= next) :=
  fun _ hs => (h hs).bind fun a _ hs' => hnext a hs'

/-- A step of a composite operation. -/
theorem RefusesAs.step {act : Action σ DepotError α} (h : RefusesAs good P steps act) {step : String}
    (hstep : step ∈ steps) :
    RefusesAs good P steps (act.mapError fun err => .database (step ++ err.message)) := by
  intro s hs
  exact Action.ensures_mapError
    ((h hs).weaken (fun _ _ h => h) fun _ _ h => ⟨.database hstep h.1, h.2⟩)

end Steps

section Operations

variable (hkv : kv.RefusesOnly good P)

include hkv

theorem refusesAs_scanText (front : String) : RefusesAs good P steps (scanText kv front) :=
  refusesAs_storage (hkv.scan _)

theorem refusesAs_put (codec : DataCodec) (o : DataObject) : RefusesAs good P steps (put kv codec o) := by
  refine RefusesAs.bind (fun _ hs => Action.ensures_answer (fun _ _ => hs) fun err herr => ⟨?_, hs⟩)
    fun es => refusesAs_storage (hkv.put es)
  obtain ⟨err', herr', hstatus, -⟩ | ⟨err', herr', hstatus, -⟩ | ⟨es, hes, -⟩ :=
    entriesOf_cases codec o
  · rw [herr] at herr'
    cases herr'
    exact .of_status (.inl hstatus)
  · rw [herr] at herr'
    cases herr'
    exact .of_status (.inr hstatus)
  · rw [herr] at hes
    cases hes

theorem refusesAs_removeUnder (front : String) (p : Bytes → Bool) :
    RefusesAs good P steps (removeUnder kv front p) := by
  refine (refusesAs_scanText hkv front).bind fun es => ?_
  split
  · exact refusesAs_pure ()
  · exact refusesAs_storage (hkv.delete _)

theorem refusesAs_delete (key : String) : RefusesAs good P steps (delete kv key) :=
  refusesAs_removeUnder hkv key _

theorem refusesAs_deleteAll (keys : List String) : RefusesAs good P steps (deleteAll kv keys) := by
  induction keys with
  | nil => exact refusesAs_pure ()
  | cons key keys ih => exact (refusesAs_delete hkv key).bind fun _ => ih

theorem refusesAs_update (codec : DataCodec) (o : DataObject) :
    RefusesAs good P (Edit.update o).steps (update kv codec o) := by
  unfold update requireMetadata
  cases hm : o.metadata with
  | none => exact fun _ hs => Action.ensures_throw ⟨.invalidParameters _, hs⟩
  | some m =>
      have hdelete := (refusesAs_delete hkv m.groupKey).step
        (show s!"delete {m.groupKey}: " ∈ (Edit.update o).steps by simp [Edit.steps, hm])
      have hput := (refusesAs_put hkv codec o).step
        (show s!"put {m.groupKey}: " ∈ (Edit.update o).steps by simp [Edit.steps, hm])
      exact hdelete.bind fun _ => hput

theorem refusesAs_clear : RefusesAs good P steps (clear kv) := by
  rw [clear_eq_removeUnder]
  exact refusesAs_removeUnder hkv keyScheme _

/-- Every change fails only as the store refuses. -/
theorem refusesAs_of_act (codec : DataCodec) (edit : Edit) :
    RefusesAs good P edit.steps (edit.act kv codec) := by
  cases edit with
  | put o => exact refusesAs_put hkv codec o
  | update o => exact refusesAs_update hkv codec o
  | delete key => exact refusesAs_delete hkv key
  | deleteAll keys => exact refusesAs_deleteAll hkv keys
  | clear => exact refusesAs_clear hkv

omit hkv in
/-- What cannot be decoded is unknown. -/
theorem causedBy_of_gather {group : Bytes} {entries : List Entry} {err : DepotError}
    (h : (gather codec group entries).failure = some err) : err.CausedBy P steps := by
  induction entries with
  | nil => cases h
  | cons e entries ih =>
      unfold gather at h
      split at h
      · split at h
        · cases h
          exact .unknown _
        · exact ih h
      · split at h
        · cases h
          exact .unknown _
        · exact ih h

/-- Reading answers what went wrong beside what it has read. -/
theorem causedBy_of_read (codec : DataCodec) (key : String) {s : σ} (hs : good s) :
    good ((read kv codec key).run s).2 ∧
      ∀ err, ((read kv codec key).run s).1.2 = some err → err.CausedBy P steps := by
  have hscan : (scanText kv key).Ensures s (fun _ s' => good s')
    fun err s' => err.CausedBy P steps ∧ good s' := refusesAs_scanText hkv key hs
  rw [Action.ensures_iff] at hscan
  rw [run_read]
  rcases hexec : (scanText kv key).exec s with ⟨err | es, s'⟩
  · obtain ⟨hcaused, hs'⟩ := hscan.2 err s' hexec
    refine ⟨hs', fun err' herr' => ?_⟩
    cases herr'
    exact hcaused
  · exact ⟨hscan.1 es s' hexec, fun _ => causedBy_of_gather⟩

theorem refusesAs_get (codec : DataCodec) (key : String) : RefusesAs good P steps (get kv codec key) := by
  intro s hs
  refine Action.Ensures.bind
    (P := fun found s' => good s' ∧ ∀ err, found.2 = some err → err.CausedBy P steps)
    (Action.ensures_always (causedBy_of_read hkv codec key hs)) ?_
  rintro ⟨o, failure⟩ s' ⟨hs', hfailure⟩
  cases failure with
  | none => exact Action.ensures_pure hs'
  | some err => exact Action.ensures_throw ⟨hfailure err rfl, hs'⟩

theorem refusesAs_getSummary (codec : DataCodec) (key : String) :
    RefusesAs good P [s!"get {key}: "] (getSummary kv codec key) :=
  ((refusesAs_get hkv codec key).step (List.mem_singleton.mpr rfl)).bind fun _ => refusesAs_pure _

theorem good_of_readAll (codec : DataCodec) (groups : List String) {s : σ} (hs : good s) :
    good ((groups.mapM fun group => do
      let found ← read kv codec group
      return found.1 : StateM σ (List DataObject)).run s).2 := by
  induction groups generalizing s with
  | nil => exact hs
  | cons group groups ih =>
      rw [List.mapM_cons, StateT.run_bind]
      exact ih (@causedBy_of_read _ _ _ _ [] hkv codec group _ hs).1

theorem refusesAs_getAll (codec : DataCodec) (front : String) :
    RefusesAs good P steps (getAll kv codec front) :=
  (refusesAs_scanText hkv front).bind fun _ _ hs =>
    Action.ensures_always (good_of_readAll hkv codec _ hs)

end Operations

end Access

end ObjectStore
