import ObjectStore.Manager.Faults
import ObjectStore.Proofs.Depot.Access
import ObjectStore.Proofs.Depot.Entries

/-!
# What operations ask of a store

A put checks and encodes the whole object before it asks the store for anything, and then it asks for one
put. A removal asks for one scan, and for one delete of what was found if anything was found. That holds
over any store of keys and values, also over one that notes down what it is asked for.

Main statements: `exec_put` and `exec_removeUnder`, and `entriesOf_cases`, that says which objects pass
and what the others are refused with.
-/

namespace ObjectStore

/-- What an operation asks of a store of keys and values. -/
inductive StoreCall where
  | put (entries : List Entry)
  | delete (keys : List Bytes)
  | scan (front : Bytes)
  deriving DecidableEq, Repr

/-- As far as faults tell calls apart. -/
def StoreCall.engineCall : StoreCall → EngineCall
  | .put _ => .put
  | .delete keys => .delete keys
  | .scan _ => .scan

namespace KeyValue

variable {σ : Type}

/-- An action that notes down a call at the end of the calls so far. -/
def note {ε α : Type} (call : StoreCall) (act : Action σ ε α) :
    Action (σ × List StoreCall) ε α :=
  fun (s, calls) => ((act.exec s).1, ((act.exec s).2, calls ++ [call]))

/-- The same store, which notes down every call. -/
def noting (kv : KeyValue σ) : KeyValue (σ × List StoreCall) where
  put entries := note (.put entries) (kv.put entries)
  delete keys := note (.delete keys) (kv.delete keys)
  scan front := note (.scan front) (kv.scan front)

end KeyValue

namespace Access

/-! ## Which objects can be stored -/

section Entries

variable {codec : DataCodec}

/-- A row can be encoded: its position fits, and the codec does not refuse the record there. -/
def Encodable (codec : DataCodec) (row : Row) : Prop :=
  row.2 < UInt32.size ∧ ∃ value, codec.encodeRecord (UInt32.ofNat row.2) row.1 = .ok value

/-- What is wrong with a row that cannot be stored: its record id is no segment of a key, or it cannot be
encoded. -/
def Unstorable (codec : DataCodec) (row : Row) : Prop :=
  row.1.uid = "" ∨ '/' ∈ row.1.uid.toList ∨ ¬ Encodable codec row

/-- What is wrong with an object that cannot be stored, apart from the encoding of its metadata. -/
inductive Unacceptable (codec : DataCodec) (o : DataObject) : Prop where
  | noMetadata : o.metadata = none → Unacceptable codec o
  | notGroupKey {m : Metadata} :
      o.metadata = some m → ObjectKey.parse? m.groupKey = none → Unacceptable codec o
  | row {row : Row} : row ∈ rowsOf o → Unstorable codec row → Unacceptable codec o

/-- The metadata can be encoded. -/
def EncodesMetadata (codec : DataCodec) (o : DataObject) : Prop :=
  ∃ m value, o.metadata = some m ∧ codec.encodeMetadata m = .ok value

/-- A record that has no entry is refused for what is wrong with its row. -/
theorem memberEntry_cases (codec : DataCodec) (group : String) (position : Nat) (record : Record) :
    (∃ e, memberEntry codec group position record = .ok e ∧ ¬ Unstorable codec (record, position)) ∨
      ∃ err, memberEntry codec group position record = .error err ∧
        err.status = .invalidParameters ∧ Unstorable codec (record, position) := by
  unfold memberEntry
  cases huid : Key.checkUid record.uid with
  | error fault =>
      have hfails : ¬ Key.checkUid record.uid = .ok () := by simp [huid]
      rw [Key.checkUid_eq_ok_iff] at hfails
      refine .inr ⟨.invalidParameters fault.message, rfl, rfl, ?_⟩
      by_cases hempty : record.uid = ""
      · exact .inl hempty
      · exact .inr (.inl (by simpa [hempty] using hfails))
  | ok _ =>
      obtain ⟨hempty, hslash⟩ := Key.checkUid_eq_ok_iff.mp huid
      simp only [Answer.mapError_ok, Answer.ok_bind]
      split
      · rename_i hposition
        split
        · rename_i err hvalue
          refine .inr ⟨_, rfl, rfl, .inr (.inr fun hencodes => ?_)⟩
          obtain ⟨-, value, hok⟩ := hencodes
          rw [hvalue] at hok
          cases hok
        · rename_i value hvalue
          refine .inl ⟨_, rfl, ?_⟩
          simp [Unstorable, Encodable, hempty, hslash, hposition, hvalue]
      · rename_i hposition
        exact .inr ⟨_, rfl, rfl, .inr (.inr fun hencodes => hposition hencodes.1)⟩

theorem memberEntries_cases (codec : DataCodec) (group : String) (position : Nat)
    (records : List Record) :
    (∃ es, memberEntries codec group position records = .ok es ∧
        ∀ row ∈ records.zipIdx position, ¬ Unstorable codec row) ∨
      ∃ err, memberEntries codec group position records = .error err ∧
        err.status = .invalidParameters ∧ ∃ row ∈ records.zipIdx position, Unstorable codec row := by
  induction records generalizing position with
  | nil => exact .inl ⟨[], rfl, by simp⟩
  | cons record records ih =>
      rw [List.zipIdx_cons]
      unfold memberEntries
      obtain ⟨e, he, hstorable⟩ | ⟨err, herr, hstatus, hrow⟩ :=
        memberEntry_cases codec group position record
      · rw [he]
        obtain ⟨es, hes, hrows⟩ | ⟨err, herr, hstatus, row, hmem, hrow⟩ := ih (position + 1)
        · rw [hes]
          exact .inl ⟨e :: es, rfl, List.forall_mem_cons.mpr ⟨hstorable, hrows⟩⟩
        · rw [herr]
          exact .inr ⟨err, rfl, hstatus, row, List.mem_cons_of_mem _ hmem, hrow⟩
      · -- The first record that is refused ends the encoding.
        rw [herr]
        exact .inr ⟨err, rfl, hstatus, _, List.mem_cons_self, hrow⟩

/-- An object that is acceptable and whose metadata can be encoded has entries. Every other is refused
with the status that says which of the two is wrong, the first of them where both are. -/
theorem entriesOf_cases (codec : DataCodec) (o : DataObject) :
    (∃ err, entriesOf codec o = .error err ∧ err.status = .invalidParameters ∧
        Unacceptable codec o) ∨
      (∃ err, entriesOf codec o = .error err ∧ err.status = .unknown ∧
        ¬ Unacceptable codec o ∧ ¬ EncodesMetadata codec o) ∨
      ∃ es, entriesOf codec o = .ok es ∧ ¬ Unacceptable codec o ∧ EncodesMetadata codec o := by
  unfold entriesOf requireMetadata
  cases hm : o.metadata with
  | none => exact .inl ⟨.invalidParameters _, rfl, rfl, .noMetadata hm⟩
  | some m =>
      simp only [Answer.ok_bind, Key.checkGroup]
      cases hgroup : ObjectKey.parse? m.groupKey with
      | none => exact .inl ⟨.invalidParameters _, rfl, rfl, .notGroupKey hm hgroup⟩
      | some key =>
          simp only [Option.isSome_some, if_true, Answer.mapError_ok, Answer.ok_bind]
          obtain ⟨es, hes, hrows⟩ | ⟨err, herr, hstatus, row, hmem, hrow⟩ :=
            memberEntries_cases codec m.groupKey 0 o.records
          · -- All that could be wrong with the object was looked at.
            have hacceptable : ¬ Unacceptable codec o := by
              intro hbad
              cases hbad with
              | noMetadata hnone => simp [hm] at hnone
              | notGroupKey hm' hnone =>
                  rw [hm, Option.some.injEq] at hm'
                  simp [← hm', hgroup] at hnone
              | row hmem hrow => exact hrows _ hmem hrow
            rw [hes, Answer.ok_bind, metadataEntry]
            cases hvalue : codec.encodeMetadata m with
            | error err =>
                refine .inr (.inl ⟨.unknown _, rfl, rfl, hacceptable, ?_⟩)
                intro hencodes
                obtain ⟨m', value, hm', hok⟩ := hencodes
                rw [hm, Option.some.injEq] at hm'
                simp [← hm', hvalue] at hok
            | ok value => exact .inr (.inr ⟨_, rfl, hacceptable, m, value, hm, hvalue⟩)
          · rw [herr]
            exact .inl ⟨err, rfl, hstatus, .row hmem hrow⟩

/-- An object has entries exactly if nothing is wrong with it. -/
theorem exists_entriesOf_iff {o : DataObject} :
    (∃ es, entriesOf codec o = .ok es) ↔ ¬ Unacceptable codec o ∧ EncodesMetadata codec o := by
  obtain ⟨err, herr, -, hbad⟩ | ⟨err, herr, -, -, hnone⟩ | ⟨es, hes, hgood, hsome⟩ :=
    entriesOf_cases codec o
  · simp [herr, hbad]
  · simp [herr, hnone]
  · simp [hes, hgood, hsome]

end Entries

/-! ## Calls -/

section Calls

variable {σ : Type}

/-- A put asks for nothing, or for one put of all entries of the object. -/
theorem exec_put (kv : KeyValue σ) (codec : DataCodec) (o : DataObject) (s : σ) :
    (put kv codec o).exec s =
      match entriesOf codec o with
      | .error err => (.error err, s)
      | .ok es => (((kv.put es).exec s).1.mapError .storage, ((kv.put es).exec s).2) := by
  unfold put
  rw [Action.exec_bind, Action.exec_answer]
  cases entriesOf codec o with
  | error err => rfl
  | ok es => rfl

/-- A removal asks for one scan, and for one delete if the scan has found what is to go. -/
theorem exec_removeUnder (kv : KeyValue σ) (front : String) (p : Bytes → Bool) (s : σ) :
    (removeUnder kv front p).exec s =
      match (kv.scan (Utf8.encode front)).exec s with
      | (.error err, s') => (.error (.storage err), s')
      | (.ok es, s') =>
        if (es.map Entry.key).filter p = [] then (.ok (), s')
        else
          (((kv.delete ((es.map Entry.key).filter p)).exec s').1.mapError .storage,
            ((kv.delete ((es.map Entry.key).filter p)).exec s').2) := by
  unfold removeUnder scanText
  rw [Action.exec_bind, Action.exec_mapError]
  rcases (kv.scan (Utf8.encode front)).exec s with ⟨err | es, s'⟩
  · rfl
  · simp only [Answer.mapError_ok]
    split
    · rename_i hnil
      simp [hnil]
    · rename_i hne
      simp only [if_neg hne, Action.exec_mapError]

/-- What belongs to a key: a scan also finds what only starts alike. -/
def belonging (kv : KeyValue σ) (key : String) : Action σ DepotError (List Entry) := do
  let es ← scanText kv key
  return es.filter fun e => Key.belongsTo e.key key

/-- A get looks at nothing but what belongs to the key. -/
theorem get_eq_belonging (kv : KeyValue σ) (codec : DataCodec) (key : String) :
    get kv codec key = (do
      let es ← belonging kv key
      match (gather codec (Utf8.encode key) es).failure with
      | none => return (gather codec (Utf8.encode key) es).object
      | some err => throw err) := by
  funext s
  show (get kv codec key).exec s = Action.exec _ s
  unfold get belonging
  rw [Action.exec_bind, Action.exec_always, run_read, Action.exec_bind, Action.exec_bind]
  rcases (scanText kv key).exec s with ⟨err | es, s'⟩
  · rfl
  · simp only [Action.exec_pure]
    cases (gather codec (Utf8.encode key) (es.filter fun e => Key.belongsTo e.key key)).failure <;> rfl

/-- A delete looks at nothing but what belongs to the key. -/
theorem delete_eq_belonging (kv : KeyValue σ) (key : String) :
    delete kv key = (do
      let es ← belonging kv key
      if es = [] then return ()
      else (kv.delete (es.map Entry.key)).mapError .storage) := by
  funext s
  show (delete kv key).exec s = Action.exec _ s
  unfold delete removeUnder belonging
  rw [Action.exec_bind, Action.exec_bind, Action.exec_bind]
  rcases (scanText kv key).exec s with ⟨err | es, s'⟩
  · rfl
  · have hkeys : (es.map Entry.key).filter (fun k => Key.belongsTo k key) =
        (es.filter fun e => Key.belongsTo e.key key).map Entry.key := List.filter_map
    simp only [Action.exec_pure, hkeys]
    cases es.filter fun e => Key.belongsTo e.key key with
    | nil => rfl
    | cons e es => rfl

/-- What a put asks a store for. -/
def callsOfPut (codec : DataCodec) (o : DataObject) : List StoreCall :=
  (entriesOf codec o).toOption.toList.map .put

/-- What a removal asks a store for. -/
def callsOfRemoval (kv : KeyValue σ) (front : String) (p : Bytes → Bool) (s : σ) : List StoreCall :=
  .scan (Utf8.encode front) ::
    match ((kv.scan (Utf8.encode front)).exec s).1 with
    | .error _ => []
    | .ok es =>
      if (es.map Entry.key).filter p = [] then [] else [.delete ((es.map Entry.key).filter p)]

/-- A put over a store that notes its calls does what it does without notes. -/
theorem exec_noting_put (kv : KeyValue σ) (codec : DataCodec) (o : DataObject) (s : σ) :
    (put kv.noting codec o).exec (s, []) =
      (((put kv codec o).exec s).1, (((put kv codec o).exec s).2, callsOfPut codec o)) := by
  rw [exec_put, exec_put, callsOfPut]
  cases entriesOf codec o with
  | error err => rfl
  | ok es => rfl

/-- A removal over a store that notes its calls does what it does without notes, whatever was noted
before. -/
theorem exec_noting_removeUnder_from (kv : KeyValue σ) (front : String) (p : Bytes → Bool) (s : σ)
    (calls : List StoreCall) :
    (removeUnder kv.noting front p).exec (s, calls) =
      (((removeUnder kv front p).exec s).1,
        (((removeUnder kv front p).exec s).2, calls ++ callsOfRemoval kv front p s)) := by
  have hscan : (kv.noting.scan (Utf8.encode front)).exec (s, calls) =
      (((kv.scan (Utf8.encode front)).exec s).1,
        (((kv.scan (Utf8.encode front)).exec s).2, calls ++ [.scan (Utf8.encode front)])) := rfl
  have hdelete (keys : List Bytes) (s : σ) (calls : List StoreCall) :
      (kv.noting.delete keys).exec (s, calls) =
        (((kv.delete keys).exec s).1, (((kv.delete keys).exec s).2, calls ++ [.delete keys])) := rfl
  rw [exec_removeUnder, exec_removeUnder, callsOfRemoval, hscan]
  rcases (kv.scan (Utf8.encode front)).exec s with ⟨err | es, s'⟩
  · rfl
  · by_cases hnil : (es.map Entry.key).filter p = []
    · simp only [hnil, if_true]
    · simp [hnil, hdelete]

theorem exec_noting_removeUnder (kv : KeyValue σ) (front : String) (p : Bytes → Bool) (s : σ) :
    (removeUnder kv.noting front p).exec (s, []) =
      (((removeUnder kv front p).exec s).1,
        (((removeUnder kv front p).exec s).2, callsOfRemoval kv front p s)) := by
  rw [exec_noting_removeUnder_from, List.nil_append]

end Calls

end Access

end ObjectStore
