import ObjectStore.Proofs.World.Isolation
import ObjectStore.Proofs.World.Outcomes

/-!
# What an update comes to

An update removes the group of its object and then puts the object there. Nothing is asked of the engine
if the depot is not ready or the object has no metadata; after that an update fails exactly if one of its
two steps fails, and whatever has failed, it is told as a failure of the database. A removal that fails
has left the content as it was. A put that fails has not: the group is gone then. In no case are entries
that the group had before found next to new ones.

Main statement: `outcome_of_update`.
-/

namespace ObjectStore

namespace Table

/-- Where all entries that are put belong to a key, they are all that is found under the key if it was
emptied first. -/
theorem under_applyPut_without {key : String} {es : List Entry}
    (hes : ∀ e ∈ es, Key.belongsTo e.key key = true) (t : Table) :
    ((t.without key).applyPut es).under key = applyPut ∅ es := by
  have hall : es.filter (fun e => Key.belongsTo e.key key) = es := List.filter_eq_self.mpr hes
  have hnone : (t.without key).filter (fun k _ => Key.belongsTo k key) = ∅ := by
    apply SortedMap.ext_get?
    intro k
    rw [without, SortedMap.get?_filter, SortedMap.get?_filter, SortedMap.get?_empty]
    cases hbelongs : Key.belongsTo k key <;> cases t.get? k <;> simp [Option.filter]
  rw [under, filter_applyPut _ es fun k => Key.belongsTo k key, hall, hnone]

theorem under_without (t : Table) (key : String) : (t.without key).under key = ∅ :=
  @under_applyPut_without key [] (fun _ he => nomatch he) t

end Table

namespace World

open Access

/-- Why the removal of a group fails: the engine refuses the scan, or the delete of what was found. -/
inductive RemovalFails (handle : Handle) (group : String) (w : World) : Prop where
  | scan : (scanRefusal? handle w).isSome → RemovalFails handle group w
  | delete (keys : List Bytes) :
      keys = found handle group (fun k => Key.belongsTo k group) w → keys ≠ [] →
      (refusal? handle (.delete keys) (.delete keys) w).isSome → RemovalFails handle group w

/-- Why a put fails: the object cannot be stored, its metadata cannot be encoded, or the engine refuses
the batch. -/
inductive PutFails (codec : DataCodec) (handle : Handle) (o : DataObject) (w : World) : Prop where
  | unacceptable : Unacceptable codec o → PutFails codec handle o w
  | metadata : ¬ EncodesMetadata codec o → PutFails codec handle o w
  | refused (es : List Entry) :
      entriesOf codec o = .ok es → (refusal? handle .put (.put es) w).isSome →
      PutFails codec handle o w

/-- What becomes of an update. The switches of engine and codec are those of the world and of the depot,
so that they do not change on the way. -/
structure UpdateOutcome (d : Depot) (o : DataObject) (w : World) : Prop where
  notReady : statusOf d (.update o) w = .notReady ↔ d.state ≠ .ready
  invalidParameters : statusOf d (.update o) w = .invalidParameters ↔
    d.state = .ready ∧ o.metadata = none
  /-- The put is tried in the world that the removal leaves. -/
  database : statusOf d (.update o) w = .database ↔
    ∃ handle m, d.phase = .ready handle ∧ o.metadata = some m ∧
      (RemovalFails handle m.groupKey w ∨
        PutFails d.codec handle o (done d (.delete m.groupKey) w).2)
  ok : statusOf d (.update o) w = .ok ↔
    ∃ handle m, d.phase = .ready handle ∧ o.metadata = some m ∧
      ¬ RemovalFails handle m.groupKey w ∧
      ¬ PutFails d.codec handle o (done d (.delete m.groupKey) w).2
  /-- A failure of a step is told with a text of its own, never as it came from the step. -/
  never : ∀ reason cause, (done d (.update o) w).1 ≠ .error (.unknown reason) ∧
    (done d (.update o) w).1 ≠ .error (.storage cause)
  refused : statusOf d (.update o) w = .notReady ∨ statusOf d (.update o) w = .invalidParameters →
    (done d (.update o) w).2 = w
  removalFailed : ∀ handle m, d.phase = .ready handle → o.metadata = some m →
    RemovalFails handle m.groupKey w → Untouched w (done d (.update o) w).2
  putFailed : ∀ handle m, d.phase = .ready handle → o.metadata = some m →
    ¬ RemovalFails handle m.groupKey w →
    PutFails d.codec handle o (done d (.delete m.groupKey) w).2 →
      content handle (done d (.update o) w).2 = (content handle w).without m.groupKey
  replaced : ∀ handle m, d.phase = .ready handle → o.metadata = some m →
    statusOf d (.update o) w = .ok →
      ∃ es, entriesOf d.codec o = .ok es ∧
        content handle (done d (.update o) w).2 =
          ((content handle w).without m.groupKey).applyPut es
  /-- What the group has afterwards is what it had, or nothing of it. -/
  unmixed : ∀ handle m, d.phase = .ready handle → o.metadata = some m →
    (content handle (done d (.update o) w).2).under m.groupKey =
        (content handle w).under m.groupKey ∨
      (content handle (done d (.update o) w).2).under m.groupKey = ∅ ∨
      ∃ es, entriesOf d.codec o = .ok es ∧
        (content handle (done d (.update o) w).2).under m.groupKey = Table.applyPut ∅ es

theorem Untouched.content_eq {w w' : World} (h : Untouched w w') (handle : Handle) :
    content handle w' = content handle w := by
  rw [content, content, h.engines]

section Steps

variable {d : Depot} {handle : Handle} {o : DataObject} {m : Metadata} {w : World}

/-- Without metadata there is no group to remove. -/
theorem done_update_of_no_metadata (hphase : d.phase = .ready handle) (hm : o.metadata = none)
    (w : World) :
    done d (.update o) w = (.error (.invalidParameters "unified data has no runtime"), w) := by
  show (withObjects d fun kv codec => Access.update kv codec o).exec w = _
  rw [withObjects_of_phase hphase, Access.update, Action.exec_bind, Action.exec_answer,
    requireMetadata, hm]

/-- An update is a removal and then a put, each with its failures told as those of the database. -/
theorem done_update (hphase : d.phase = .ready handle) (hm : o.metadata = some m) (w : World) :
    done d (.update o) w =
      match done d (.delete m.groupKey) w with
      | (.error err, w₁) =>
        let group := m.groupKey
        let reason := err.message
        (.error (.database s!"delete {group}: {reason}"), w₁)
      | (.ok (), w₁) =>
        match done d (.put o) w₁ with
        | (.error err, w₂) =>
          let group := m.groupKey
          let reason := err.message
          (.error (.database s!"put {group}: {reason}"), w₂)
        | (.ok (), w₂) => (.ok (), w₂) := by
  have hdelete : done d (.delete m.groupKey) w =
      (Access.delete (keyValue handle) m.groupKey).exec w := by
    show (withObjects d fun kv codec => Access.delete kv m.groupKey).exec w = _
    rw [withObjects_of_phase hphase]
  have hput (w₁ : World) : done d (.put o) w₁ =
      (Access.put (keyValue handle) d.codec o).exec w₁ := by
    show (withObjects d fun kv codec => Access.put kv codec o).exec w₁ = _
    rw [withObjects_of_phase hphase]
  show (withObjects d fun kv codec => Access.update kv codec o).exec w = _
  rw [withObjects_of_phase hphase, Access.update, Action.exec_bind, Action.exec_answer,
    requireMetadata, hm]
  simp only [Action.exec_bind, Action.exec_mapError, hdelete, hput]
  rcases (Access.delete (keyValue handle) m.groupKey).exec w with ⟨err | _, w₁⟩
  · rfl
  · simp only [Answer.mapError_ok]
    rcases (Access.put (keyValue handle) d.codec o).exec w₁ with ⟨err | _, w₂⟩ <;> rfl

/-- A change is answered with `ok` by its answer. -/
theorem statusOf_eq_ok_iff {edit : Edit} :
    statusOf d edit w = .ok ↔ (done d edit w).1 = .ok () := by
  unfold statusOf
  cases (done d edit w).1 with
  | ok _ => simp [Status.ofAnswer]
  | error err => cases err <;> simp [Status.ofAnswer, DepotError.status]

theorem removalFails_iff (hphase : d.phase = .ready handle) (group : String) (w : World) :
    RemovalFails handle group w ↔ statusOf d (.delete group) w = .database := by
  rw [(outcome_of_removal (removes_delete group) d w).database]
  constructor
  case mp =>
    intro h
    refine ⟨handle, hphase, ?_⟩
    cases h with
    | scan h => exact .inl h
    | delete keys hkeys hne h =>
        subst hkeys
        exact .inr ⟨hne, h⟩
  case mpr =>
    rintro ⟨handle', hphase', h⟩
    cases hphase.symm.trans hphase'
    rcases h with h | ⟨hne, h⟩
    · exact .scan h
    · exact .delete _ rfl hne h

theorem putFails_iff (hphase : d.phase = .ready handle) (o : DataObject) (w : World) :
    PutFails d.codec handle o w ↔ statusOf d (.put o) w ≠ .ok := by
  have hput := outcome_of_put d o w
  have hok : statusOf d (.put o) w = .ok ↔
      ∃ es, entriesOf d.codec o = .ok es ∧ refusal? handle .put (.put es) w = none := by
    rw [hput.ok]
    constructor
    case mp =>
      rintro ⟨handle', es, hphase', h⟩
      cases hphase.symm.trans hphase'
      exact ⟨es, h⟩
    case mpr => exact fun ⟨es, h⟩ => ⟨handle, es, hphase, h⟩
  rw [Ne, hok]
  constructor
  case mp =>
    rintro h ⟨es, hes, hrefusal⟩
    have hpasses := hput.passes.mp ⟨es, hes⟩
    cases h with
    | unacceptable h => exact hpasses.1 h
    | metadata h => exact h hpasses.2
    | refused es' hes' h =>
        cases hes.symm.trans hes'
        simp [hrefusal] at h
  case mpr =>
    intro h
    by_cases hpasses : ∃ es, entriesOf d.codec o = .ok es
    · obtain ⟨es, hes⟩ := hpasses
      refine .refused es hes (Option.isSome_iff_ne_none.mpr fun hnone => h ⟨es, hes, hnone⟩)
    · rw [hput.passes, Classical.not_and_iff_not_or_not, Classical.not_not] at hpasses
      exact hpasses.elim .unacceptable .metadata

/-- A removal that is answered with an error has one of the reasons, and has done nothing. -/
theorem removalFails_of_done {key : String} {err : DepotError} {w₁ : World}
    (hphase : d.phase = .ready handle) (h : done d (.delete key) w = (.error err, w₁)) :
    RemovalFails handle key w ∧ Untouched w w₁ := by
  have houtcome := outcome_of_removal (removes_delete key) d w
  have hnotOk : statusOf d (.delete key) w ≠ .ok := by
    rw [Ne, statusOf_eq_ok_iff, h]
    nofun
  have hnotReady : statusOf d (.delete key) w ≠ .notReady :=
    fun hstatus => houtcome.notReady.mp hstatus (state_of_phase hphase)
  refine ⟨(removalFails_iff hphase key w).mpr ?_, ?_⟩
  · exact Classical.byContradiction fun hdatabase =>
      hnotOk (houtcome.ok.mpr ⟨hnotReady, hdatabase⟩)
  · have huntouched := houtcome.untouched hnotOk
    rwa [h] at huntouched

/-- A removal that succeeds has no reason to fail, and has removed what belongs to its key. -/
theorem without_of_done {key : String} {w₁ : World} (hphase : d.phase = .ready handle)
    (h : done d (.delete key) w = (.ok (), w₁)) :
    ¬ RemovalFails handle key w ∧
      content handle w₁ = (content handle w).without key := by
  have hok : statusOf d (.delete key) w = .ok := by
    rw [statusOf_eq_ok_iff, h]
  have hensures : (Edit.act (keyValue handle) d.codec (.delete key)).Ensures w _ _ :=
    ensures_delete (lawful_anywhere handle) (closedUnderAccess_true d.codec) (fun _ => trivial)
      trivial key
  have hgone := holds_of_statusOf_ok hphase hensures hok
  rw [h] at hgone
  refine ⟨?_, hgone.2⟩
  rw [removalFails_iff hphase, hok]
  nofun

theorem putFails_of_done {err : DepotError} {w₁ : World} (hphase : d.phase = .ready handle)
    (h : done d (.put o) w = (.error err, w₁)) :
    PutFails d.codec handle o w ∧ Untouched w w₁ := by
  have hnotOk : statusOf d (.put o) w ≠ .ok := by
    rw [Ne, statusOf_eq_ok_iff, h]
    nofun
  have huntouched := (outcome_of_put d o w).untouched hnotOk
  rw [h] at huntouched
  exact ⟨(putFails_iff hphase o w).mpr hnotOk, huntouched⟩

theorem applyPut_of_done {w₁ : World} (hphase : d.phase = .ready handle)
    (h : done d (.put o) w = (.ok (), w₁)) :
    ¬ PutFails d.codec handle o w ∧
      ∃ es, entriesOf d.codec o = .ok es ∧
        content handle w₁ = (content handle w).applyPut es := by
  have houtcome := outcome_of_put d o w
  have hok : statusOf d (.put o) w = .ok := by
    rw [statusOf_eq_ok_iff, h]
  obtain ⟨-, es, -, hes, -⟩ := houtcome.ok.mp hok
  have hstored := houtcome.stored handle es hphase hes hok
  rw [h] at hstored
  exact ⟨fun hfails => (putFails_iff hphase o w).mp hfails hok, es, hes, hstored⟩

end Steps

/-- An update is answered for every depot with the status that says where it has ended: before its two
steps, in one of them, or after both. What is stored of the group is then what was stored before, nothing,
or what the put has written. -/
theorem outcome_of_update (d : Depot) (o : DataObject) (w : World) : UpdateOutcome d o w := by
  by_cases hready : d.state = .ready
  · obtain ⟨handle, hphase⟩ := exists_handle_of_state hready
    cases hm : o.metadata with
    | none =>
        have hdone := done_update_of_no_metadata hphase hm w
        constructor
        all_goals simp [statusOf, hdone, Status.ofAnswer, DepotError.status, hready, hm]
    | some m =>
        have hdone := done_update hphase hm w
        rcases hdelete : done d (.delete m.groupKey) w with ⟨err | _, w₁⟩
        · obtain ⟨hfails, huntouched⟩ := removalFails_of_done hphase hdelete
          have hcontent := huntouched.content_eq handle
          simp only [hdelete] at hdone
          constructor
          all_goals
            simp [statusOf, hdone, Status.ofAnswer, DepotError.status, hready, hm, hphase, hfails,
              huntouched, hcontent]
        · obtain ⟨hremoves, hgone⟩ := without_of_done hphase hdelete
          rcases hput : done d (.put o) w₁ with ⟨err | _, w₂⟩
          · -- What the removal has done stays done.
            obtain ⟨hfails, huntouched⟩ := putFails_of_done hphase hput
            have hcontent := (huntouched.content_eq handle).trans hgone
            simp only [hdelete, hput] at hdone
            constructor
            all_goals
              simp [statusOf, hdone, hdelete, Status.ofAnswer, DepotError.status, hready, hm, hphase,
                hremoves, hfails, hcontent, Table.under_without]
          · obtain ⟨hputs, es, hes, hstored⟩ := applyPut_of_done hphase hput
            rw [hgone] at hstored
            have hunder := Table.under_applyPut_without (belongsTo_of_mem_entriesOf hes hm)
              (content handle w)
            simp only [hdelete, hput] at hdone
            constructor
            all_goals
              simp [statusOf, hdone, hdelete, Status.ofAnswer, hready, hm, hphase, hremoves, hputs,
                hstored, hes, hunder]
  · have hdone := done_of_not_ready hready (.update o) w
    have hphase (handle : Handle) : d.phase ≠ .ready handle := fun h => hready (state_of_phase h)
    constructor
    all_goals simp [statusOf, hdone, Status.ofAnswer, DepotError.status, hready, hphase]

end World

end ObjectStore
