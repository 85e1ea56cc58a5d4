import ObjectStore.Depot.Access
import ObjectStore.Proofs.Action
import ObjectStore.Proofs.Engine.Table
import ObjectStore.Proofs.Object.Key

/-!
# What the operations on objects do to a table

The operations are the same over every store of keys and values, so they are understood once, over any
store that keeps a table: each of its calls either does to the table what its name says or fails and
leaves the table as it is. What an operation makes of the table then no longer depends on the store.

Main statements: one lemma for each operation, `ensures_put` to `ensures_getAll`.
-/

namespace ObjectStore

/-! ## Tables under keys -/

namespace Table

/-- The entries that belong to a key. -/
def under (t : Table) (key : String) : Table :=
  t.filter fun k _ => Key.belongsTo k key

/-- The entries that do not belong to a key. -/
def without (t : Table) (key : String) : Table :=
  t.filter fun k _ => !Key.belongsTo k key

/-- The entries outside of the key scheme. -/
def foreign (t : Table) : Table :=
  t.filter fun k _ => !k.startsWith (Utf8.encode keyScheme)

/-- Of what a scan finds under a key, that which belongs to the key. -/
theorem filter_scan_belongsTo (key : String) (t : Table) :
    (t.scan (Utf8.encode key)).filter (fun e => Key.belongsTo e.key key) =
      (t.under key).entries.map entryOf := by
  rw [scan_eq_filter, List.filter_map, List.filter_filter]
  have hfilter : (t.entries.filter fun e =>
      ((fun e : Entry => Key.belongsTo e.key key) ∘ entryOf) e &&
        e.1.startsWith (Utf8.encode key)) = (t.under key).entries := by
    refine List.filter_congr fun e _ => ?_
    cases hbelongs : Key.belongsTo e.1 key with
    | true => simp [hbelongs, Key.startsWith_of_belongsTo hbelongs]
    | false => simp [hbelongs]
  rw [hfilter]

/-- What is read under a key. -/
def gathered (codec : DataCodec) (key : String) (t : Table) : Access.Gathered :=
  Access.gather codec (Utf8.encode key)
    ((t.scan (Utf8.encode key)).filter fun e => Key.belongsTo e.key key)

/-- What is read under a key depends on nothing else. -/
theorem gathered_eq_under (codec : DataCodec) (key : String) (t : Table) :
    t.gathered codec key =
      Access.gather codec (Utf8.encode key) ((t.under key).entries.map entryOf) := by
  rw [gathered, filter_scan_belongsTo]

/-- What a table holds under a key, or why that cannot be read. -/
def object (codec : DataCodec) (key : String) (t : Table) : Except DepotError DataObject :=
  match (t.gathered codec key).failure with
  | none => .ok (t.gathered codec key).object
  | some err => .error err

/-- The objects of a table whose group keys start with a text, each as far as it can be read. -/
def objects (codec : DataCodec) (front : String) (t : Table) : List DataObject :=
  (((t.scan (Utf8.encode front)).map fun e => Utf8.lossy e.key).filter Key.isGroupShaped).map
    fun group => (t.gathered codec group).object

end Table

/-! ## Stores that keep a table -/

namespace KeyValue

variable {σ : Type}

/-- What a call may do to a store whose table is to become `t`: it does so, or it fails and leaves the
table as it is. In both cases the state stays good. -/
def Changes (good : σ → Prop) (content : σ → Table) (s : σ) (t : Table)
    (call : Action σ StorageError Unit) : Prop :=
  call.Ensures s (fun _ s' => good s' ∧ content s' = t)
    fun _ s' => good s' ∧ content s' = content s

/-- A store that keeps a table. `before` holds as long as it was only read, and `after` once it was
written to; a change to a table that is not safe is not covered. -/
structure Lawful (kv : KeyValue σ) (before after : σ → Prop) (content : σ → Table)
    (safe : Table → Prop) : Prop where
  put {s : σ} (es : List Entry) : before s → safe ((content s).applyPut es) →
    Changes after content s ((content s).applyPut es) (kv.put es)
  delete {s : σ} (keys : List Bytes) : before s → safe ((content s).applyDelete keys) →
    Changes after content s ((content s).applyDelete keys) (kv.delete keys)
  scan {s : σ} (front : Bytes) : before s →
    (kv.scan front).Ensures s
      (fun es s' => es = (content s).scan front ∧ before s' ∧ content s' = content s)
      fun _ s' => before s' ∧ content s' = content s
  after_of_before {s : σ} : before s → after s

/-- A store whose scans succeed. -/
def Readable (kv : KeyValue σ) (good : σ → Prop) (content : σ → Table) : Prop :=
  ∀ (s : σ) (front : Bytes), good s →
    ∃ s', (kv.scan front).exec s = (.ok ((content s).scan front), s') ∧ good s' ∧
      content s' = content s

end KeyValue

namespace Access

/-- The tables that the operations on objects lead to from safe tables are safe. -/
structure ClosedUnderAccess (codec : DataCodec) (safe : Table → Prop) : Prop where
  put {t : Table} {o : DataObject} {es : List Entry} :
    safe t → entriesOf codec o = .ok es → safe (t.applyPut es)
  delete {t : Table} (key : String) : safe t → safe (t.without key)
  clear {t : Table} : safe t → safe t.foreign

variable {σ : Type} {kv : KeyValue σ} {codec : DataCodec} {before after good : σ → Prop}
  {content : σ → Table} {safe : Table → Prop} {s : σ}

/-! ## Writing once -/

section WritingOnce

variable (hkv : kv.Lawful before after content safe) (hsafe : ClosedUnderAccess codec safe)
  (hbefore : ∀ {s}, before s → safe (content s))

include hkv

include hsafe hbefore in
theorem ensures_put (hs : before s) (o : DataObject) :
    (put kv codec o).Ensures s
      (fun _ s' => after s' ∧
        ∃ es, entriesOf codec o = .ok es ∧ content s' = (content s).applyPut es)
      fun _ s' => after s' ∧ content s' = content s := by
  refine Action.Ensures.bind (P := fun es s' => entriesOf codec o = .ok es ∧ s' = s) ?_ ?_
  · exact Action.ensures_answer (fun es hes => ⟨hes, rfl⟩) fun _ _ => ⟨hkv.after_of_before hs, rfl⟩
  · rintro es s' ⟨hes, rfl⟩
    refine Action.ensures_mapError ?_
    refine (hkv.put es hs (hsafe.put (hbefore hs) hes)).weaken ?_ fun _ _ h => h
    rintro - s' ⟨hs', hcontent⟩
    exact ⟨hs', es, hes, hcontent⟩

theorem ensures_scanText (hs : before s) (front : String) :
    (scanText kv front).Ensures s
      (fun es s' => es = (content s).scan (Utf8.encode front) ∧ before s' ∧ content s' = content s)
      fun _ s' => before s' ∧ content s' = content s :=
  Action.ensures_mapError (hkv.scan _ hs)

/-- Removing what a scan finds and a test passes keeps everything else. -/
theorem ensures_removeUnder (hs : before s) {front : String} {p : Bytes → Bool} {t : Table}
    (ht : ((content s).filter fun k _ => !(k.startsWith (Utf8.encode front) && p k)) = t)
    (hresult : safe t) :
    (removeUnder kv front p).Ensures s (fun _ s' => after s' ∧ content s' = t)
      fun _ s' => after s' ∧ content s' = content s := by
  rw [← Table.applyDelete_scan] at ht
  refine Action.Ensures.bind ((ensures_scanText hkv hs front).weaken (fun _ _ h => h) ?_) ?_
  · rintro _ s' ⟨hs', hcontent⟩
    exact ⟨hkv.after_of_before hs', hcontent⟩
  rintro es s' ⟨rfl, hs', hcontent⟩
  split
  · -- Nothing was found, so that nothing is to be removed.
    rename_i hnil
    rw [hnil] at ht
    exact Action.ensures_pure ⟨hkv.after_of_before hs', hcontent.trans ht⟩
  · refine Action.ensures_mapError ?_
    rw [← hcontent] at ht ⊢
    rw [← ht] at hresult ⊢
    exact hkv.delete _ hs' hresult

include hsafe hbefore in
theorem ensures_delete (hs : before s) (key : String) :
    (delete kv key).Ensures s (fun _ s' => after s' ∧ content s' = (content s).without key)
      fun _ s' => after s' ∧ content s' = content s := by
  refine ensures_removeUnder hkv hs ?_ (hsafe.delete key (hbefore hs))
  -- The scan finds all that belongs to the key, and the test drops what only starts alike.
  have htest (k : Bytes) : (k.startsWith (Utf8.encode key) && Key.belongsTo k key) =
      Key.belongsTo k key := by
    cases hbelongs : Key.belongsTo k key with
    | true => simp [Key.startsWith_of_belongsTo hbelongs]
    | false => simp
  simp only [htest]
  rfl

omit hkv in
/-- A removal fails only where the store refuses. -/
theorem ensures_removeUnder_status (kv : KeyValue σ) (front : String) (p : Bytes → Bool) (s : σ) :
    (removeUnder kv front p).Ensures s (fun _ _ => True) fun err _ => err.status = .database := by
  have hstorage {α : Type} (call : Action σ StorageError α) (s : σ) :
      (call.mapError DepotError.storage).Ensures s (fun _ _ => True)
        fun err _ => err.status = .database :=
    Action.ensures_mapError (Action.ensures_iff.mpr ⟨fun _ _ _ => trivial, fun _ _ _ => rfl⟩)
  apply Action.Ensures.bind (hstorage (kv.scan _) s)
  intro es s' _
  split
  · exact Action.ensures_pure trivial
  · exact hstorage (kv.delete _) s'

omit hkv in
/-- To let everything pass but what the store refuses hides no failure of a clear. -/
theorem clear_eq_removeUnder (kv : KeyValue σ) :
    clear kv = removeUnder kv keyScheme fun _ => true := by
  funext s
  show (clear kv).exec s = (removeUnder kv keyScheme fun _ => true).exec s
  have hstatus := Action.ensures_iff.mp (ensures_removeUnder_status kv keyScheme
    (fun _ => true) s)
  unfold clear
  rw [Action.exec_bind, Action.exec_always, Action.run_outcome]
  rcases hremove : (removeUnder kv keyScheme fun _ => true).exec s with ⟨err | _, s'⟩
  · have herr := hstatus.2 err s' hremove
    simp only [herr, if_true, Action.exec_throw]
  · rfl

include hsafe hbefore in
theorem ensures_clear (hs : before s) :
    (clear kv).Ensures s (fun _ s' => after s' ∧ content s' = (content s).foreign)
      fun _ s' => after s' ∧ content s' = content s := by
  rw [clear_eq_removeUnder]
  refine ensures_removeUnder hkv hs ?_ (hsafe.clear (hbefore hs))
  simp only [Bool.and_true]
  rfl

end WritingOnce

/-! ## Writing and reading any number of times -/

section Operations

variable (hkv : kv.Lawful good good content safe) (hsafe : ClosedUnderAccess codec safe)
  (hgood : ∀ {s}, good s → safe (content s))

include hkv

include hsafe hgood in
theorem ensures_deleteAll (hs : good s) (keys : List String) :
    (deleteAll kv keys).Ensures s
      (fun _ s' => good s' ∧ content s' = keys.foldl Table.without (content s))
      fun _ s' => good s' := by
  induction keys generalizing s with
  | nil => exact Action.ensures_pure ⟨hs, rfl⟩
  | cons key keys ih =>
      -- The keys before a failure are gone already.
      have hdelete := ensures_delete hkv hsafe hgood hs key
      refine (hdelete.weaken (fun _ _ h => h) fun _ _ h => h.1).bind ?_
      rintro - s' ⟨hs', hcontent⟩
      rw [List.foldl_cons, ← hcontent]
      exact ih hs'

include hsafe hgood in
/-- An update that fails has done nothing, or it has removed what belongs to the key. -/
theorem ensures_update (hs : good s) (o : DataObject) :
    (update kv codec o).Ensures s
      (fun _ s' => good s' ∧
        ∃ m es, o.metadata = some m ∧ entriesOf codec o = .ok es ∧
          content s' = ((content s).without m.groupKey).applyPut es)
      fun _ s' => good s' ∧
        (content s' = content s ∨
          ∃ m, o.metadata = some m ∧ content s' = (content s).without m.groupKey) := by
  refine Action.Ensures.bind (P := fun m s' => o.metadata = some m ∧ s' = s) ?_ ?_
  · refine Action.ensures_answer (fun m hm => ⟨?_, rfl⟩) fun _ _ => ⟨hs, .inl rfl⟩
    unfold requireMetadata at hm
    split at hm
    · rename_i hsome
      cases hm
      exact hsome
    · cases hm
  · rintro m s' ⟨hm, rfl⟩
    -- If the put fails, what the delete has removed stays removed.
    have hdelete := ensures_delete hkv hsafe hgood hs m.groupKey
    refine Action.Ensures.bind
      (Action.ensures_mapError (hdelete.weaken (fun _ _ h => h) fun _ _ h => ⟨h.1, .inl h.2⟩)) ?_
    rintro - s₁ ⟨hs₁, hcontent₁⟩
    refine Action.ensures_mapError ?_
    refine (ensures_put hkv hsafe hgood hs₁ o).weaken ?_ ?_
    · rintro - s₂ ⟨hs₂, es, hes, hcontent₂⟩
      exact ⟨hs₂, m, es, hm, hes, by rw [hcontent₂, hcontent₁]⟩
    · rintro - s₂ ⟨hs₂, hcontent₂⟩
      exact ⟨hs₂, .inr ⟨m, hm, hcontent₂.trans hcontent₁⟩⟩

omit hkv in
theorem run_read (key : String) (s : σ) :
    (read kv codec key).run s =
      match (scanText kv key).exec s with
      | (.error err, s') => (({}, some err), s')
      | (.ok entries, s') =>
        let gathered := gather codec (Utf8.encode key)
          (entries.filter fun e => Key.belongsTo e.key key)
        ((gathered.object, gathered.failure), s') := by
  unfold read
  rw [StateT.run_bind]
  rw [Action.run_outcome]
  rcases (scanText kv key).exec s with ⟨err | es, s'⟩ <;> rfl

/-- Reading leaves the table as it is. -/
theorem content_read (codec : DataCodec) (hs : good s) (key : String) :
    good ((read kv codec key).run s).2 ∧ content ((read kv codec key).run s).2 = content s := by
  have hscan := Action.ensures_iff.mp (ensures_scanText hkv hs key)
  rw [run_read]
  rcases hexec : (scanText kv key).exec s with ⟨err | es, s'⟩
  · exact hscan.2 err s' hexec
  · exact (hscan.1 es s' hexec).2

theorem ensures_get (hs : good s) (key : String) :
    (get kv codec key).Ensures s
      (fun _ s' => good s' ∧ content s' = content s)
      fun _ s' => good s' ∧ content s' = content s := by
  refine Action.Ensures.bind (P := fun _ s' => good s' ∧ content s' = content s)
    (Action.ensures_always (content_read hkv codec hs key)) ?_
  rintro ⟨o, failure⟩ s' hs'
  cases failure with
  | none => exact Action.ensures_pure hs'
  | some err => exact Action.ensures_throw hs'

theorem ensures_getSummary (hs : good s) (key : String) :
    (getSummary kv codec key).Ensures s
      (fun _ s' => good s' ∧ content s' = content s)
      fun _ s' => good s' ∧ content s' = content s := by
  refine Action.Ensures.bind (Action.ensures_mapError (ensures_get hkv hs key)) ?_
  rintro o s' hs'
  exact Action.ensures_pure hs'

/-- Reading one key after the other leaves the table as it is. -/
theorem content_readAll (hs : good s) (keys : List String) :
    let found := (keys.mapM fun key => do
      let found ← read kv codec key
      return found.1 : StateM σ (List DataObject)).run s
    good found.2 ∧ content found.2 = content s := by
  induction keys generalizing s with
  | nil => exact ⟨hs, rfl⟩
  | cons key keys ih =>
      obtain ⟨hs', hcontent⟩ := content_read hkv codec hs key
      have hrest := ih hs'
      rw [hcontent] at hrest
      simp only [List.mapM_cons, StateT.run_bind] at hrest ⊢
      exact hrest

theorem ensures_getAll (hs : good s) (front : String) :
    (getAll kv codec front).Ensures s
      (fun _ s' => good s' ∧ content s' = content s)
      fun _ s' => good s' ∧ content s' = content s := by
  refine Action.Ensures.bind (ensures_scanText hkv hs front) ?_
  -- What cannot be read is left out, so that a listing does not fail after its scan.
  rintro es s' ⟨-, hs', hcontent⟩
  rw [← hcontent]
  exact Action.ensures_always (content_readAll hkv hs' _)

end Operations

/-! ## Reading from a store that can be read -/

section Reading

variable (hkv : kv.Readable good content)

include hkv

theorem exec_scanText_of_readable (hs : good s) (front : String) :
    ∃ s', (scanText kv front).exec s = (.ok ((content s).scan (Utf8.encode front)), s') ∧
      good s' ∧ content s' = content s := by
  obtain ⟨s', hscan, hs', hcontent⟩ := hkv s (Utf8.encode front) hs
  refine ⟨s', ?_, hs', hcontent⟩
  unfold scanText
  rw [Action.exec_mapError, hscan]
  rfl

theorem run_read_of_readable (codec : DataCodec) (hs : good s) (key : String) :
    ∃ s', (read kv codec key).run s =
        ((((content s).gathered codec key).object, ((content s).gathered codec key).failure), s') ∧
      good s' ∧ content s' = content s := by
  obtain ⟨s', hscan, hs', hcontent⟩ := exec_scanText_of_readable hkv hs key
  refine ⟨s', ?_, hs', hcontent⟩
  rw [run_read, hscan]
  rfl

/-- A get answers what the table holds under the key. -/
theorem exec_get_of_readable (codec : DataCodec) (hs : good s) (key : String) :
    ∃ s', (get kv codec key).exec s = ((content s).object codec key, s') ∧
      good s' ∧ content s' = content s := by
  obtain ⟨s', hread, hs', hcontent⟩ := run_read_of_readable hkv codec hs key
  refine ⟨s', ?_, hs', hcontent⟩
  unfold get Table.object
  rw [Action.exec_bind, Action.exec_always, hread]
  cases ((content s).gathered codec key).failure with
  | none => rfl
  | some err => rfl

theorem run_readAll_of_readable (codec : DataCodec) (hs : good s) (keys : List String) :
    ∃ s', (keys.mapM fun key => do
        let found ← read kv codec key
        return found.1 : StateM σ (List DataObject)).run s =
          (keys.map fun key => ((content s).gathered codec key).object, s') ∧
      good s' ∧ content s' = content s := by
  induction keys generalizing s with
  | nil => exact ⟨s, rfl, hs, rfl⟩
  | cons key keys ih =>
      obtain ⟨s', hread, hs', hcontent⟩ := run_read_of_readable hkv codec hs key
      obtain ⟨s'', hrest, hs'', hcontent'⟩ := ih hs'
      refine ⟨s'', ?_, hs'', hcontent'.trans hcontent⟩
      rw [hcontent] at hrest
      rw [List.mapM_cons, StateT.run_bind, StateT.run_bind, hread, List.map_cons]
      show StateT.run (do
        let later ← keys.mapM fun key => do
          let found ← read kv codec key
          return found.1
        return ((content s).gathered codec key).object :: later) s' = _
      rw [StateT.run_bind, hrest]
      rfl

/-- A listing answers the objects of the table. -/
theorem exec_getAll_of_readable (codec : DataCodec) (hs : good s) (front : String) :
    ∃ s', (getAll kv codec front).exec s = (.ok ((content s).objects codec front), s') ∧
      good s' ∧ content s' = content s := by
  obtain ⟨s', hscan, hs', hcontent⟩ := exec_scanText_of_readable hkv hs front
  obtain ⟨s'', hread, hs'', hcontent'⟩ := run_readAll_of_readable hkv codec hs'
    (((((content s).scan (Utf8.encode front)).map fun e => Utf8.lossy e.key)).filter
      Key.isGroupShaped)
  -- The keys are those of the first scan, and every read finds the same table.
  refine ⟨s'', ?_, hs'', hcontent'.trans hcontent⟩
  unfold getAll
  rw [Action.exec_bind, hscan]
  simp only [Action.exec_always, hread]
  rw [hcontent]
  rfl

end Reading

end Access

end ObjectStore
