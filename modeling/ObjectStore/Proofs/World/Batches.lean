import ObjectStore.Proofs.Bytes.Utf8
import ObjectStore.Proofs.Engine.Records
import ObjectStore.Proofs.World.Noninterference
import ObjectStore.Proofs.World.Updates

/-!
# What a delete of several keys comes to

Keys are removed one after the other, up to the first that cannot be removed. Whether a key can be removed
depends on what the keys before it have left: where nothing is left of it, the engine is asked for no
delete, and no switch can refuse one. So the order decides which key is the first to fail. If none fails,
the switches leave the order no say: all that is removed was free to go. What another order of the keys can
still meet is the limit of a log: it may find more below one of its keys than a record can hold. So the
order decides nothing where the removal of each key alone can be written.

Main statements: `outcome_of_batch` and `stuck_of_batch`.
-/

namespace ObjectStore

namespace Table

/-- The entries that belong to none of the keys. -/
def withoutAll (t : Table) (keys : List String) : Table :=
  t.filter fun k _ => keys.all fun key => !Key.belongsTo k key

theorem get?_withoutAll (t : Table) (keys : List String) (k : Bytes) :
    (t.withoutAll keys).get? k =
      if ∃ key ∈ keys, Key.belongsTo k key = true then none else t.get? k := by
  rw [withoutAll, SortedMap.get?_filter]
  by_cases h : ∃ key ∈ keys, Key.belongsTo k key = true
  · have hall : (keys.all fun key => !Key.belongsTo k key) = false := by simpa using h
    rw [if_pos h, hall]
    cases t.get? k <;> rfl
  · have hall : (keys.all fun key => !Key.belongsTo k key) = true := by simpa using h
    rw [if_neg h, hall]
    cases t.get? k <;> rfl

theorem withoutAll_nil (t : Table) : t.withoutAll [] = t := by
  apply SortedMap.ext_get?
  intro k
  simp [get?_withoutAll]

/-- To remove several keys is to remove the first and then the others. -/
theorem withoutAll_cons (t : Table) (key : String) (keys : List String) :
    t.withoutAll (key :: keys) = (t.without key).withoutAll keys := by
  apply SortedMap.ext_get?
  intro k
  rw [get?_withoutAll, get?_withoutAll, get?_without]
  cases hbelongs : Key.belongsTo k key <;> simp [hbelongs]

/-- Which keys are removed decides what is left; their order and how often each is named do not. -/
theorem withoutAll_congr (t : Table) {keys keys' : List String} (h : ∀ key, key ∈ keys' ↔ key ∈ keys) :
    t.withoutAll keys' = t.withoutAll keys := by
  apply SortedMap.ext_get?
  intro k
  simp only [get?_withoutAll, h]

end Table

namespace World

open Access

/-! ## One removal after the other -/

/-- The keys are removed one after the other, and each of them can be. -/
inductive Deletes (d : Depot) : List String → World → World → Prop where
  | nil (w : World) : Deletes d [] w w
  | cons {key : String} {keys : List String} {w w₁ w₂ : World} :
      done d (.delete key) w = (.ok (), w₁) → Deletes d keys w₁ w₂ → Deletes d (key :: keys) w w₂

/-- What the removals of the keys ask the engine for, each in the world that the one before it leaves. -/
def callsOfEach (d : Depot) (handle : Handle) : List String → World → List StoreCall
  | [], _ => []
  | key :: keys, w =>
    callsOfRemoval (keyValue handle) key (fun k => Key.belongsTo k key) w ++
      callsOfEach d handle keys (done d (.delete key) w).2

/-- The removal of what belongs to each of the keys can be written as one record each. Only an engine on
disk writes records, and the lengths in them take four bytes. -/
def FitsLog (handle : Handle) (keys : List String) (w : World) : Prop :=
  ∀ e, w.engines.get? handle.engine = some e → e.directory?.isSome → ∀ key ∈ keys,
    Log.deleteLength ((content handle w).under key).keys < UInt32.size

/-- What becomes of a delete of several keys. -/
structure BatchOutcome (d : Depot) (handle : Handle) (keys : List String) (w : World) : Prop where
  /-- All keys can be removed one after the other, or there is a first one that cannot. -/
  total : (∃ w', Deletes d keys w w') ∨
    ∃ before key after err w₁ w₂, keys = before ++ key :: after ∧ Deletes d before w w₁ ∧
      done d (.delete key) w₁ = (.error err, w₂)
  /-- The first key that cannot be removed gives the answer. What belongs to the keys before it is gone,
  nothing else is, and the engine is asked for nothing that later keys are about. -/
  stopped : ∀ before key after err w₁ w₂, keys = before ++ key :: after → Deletes d before w w₁ →
    done d (.delete key) w₁ = (.error err, w₂) →
      done d (.deleteAll keys) w = (.error err, w₂) ∧
      content handle w₂ = (content handle w).withoutAll before ∧
      Asks d (.deleteAll keys) w handle (callsOfEach d handle (before ++ [key]) w)
  finished : ∀ w', Deletes d keys w w' →
    done d (.deleteAll keys) w = (.ok (), w') ∧
    content handle w' = (content handle w).withoutAll keys ∧
    Asks d (.deleteAll keys) w handle (callsOfEach d handle keys w)
  /-- The same keys in another order, with or without repetitions, come to the same. In another order a
  removal may find more, and an engine on disk has to be able to write that as one record. -/
  reordered : ∀ w', Deletes d keys w w' → FitsLog handle keys w →
    ∀ keys', (∀ key, key ∈ keys' ↔ key ∈ keys) →
      ∃ w'', done d (.deleteAll keys') w = (.ok (), w'') ∧ content handle w'' = content handle w'
  /-- There is no other reason why another order should stop. -/
  overlong : ∀ w', Deletes d keys w w' → ∀ keys', (∀ key, key ∈ keys' ↔ key ∈ keys) →
    ∀ before key after err w₁ w₂, keys' = before ++ key :: after → Deletes d before w w₁ →
      done d (.delete key) w₁ = (.error err, w₂) → ¬ FitsLog handle [key] w₁

/-- All keys can be removed one after the other, or there is a first one that cannot. -/
theorem deletes_or_stops (d : Depot) (keys : List String) (w : World) :
    (∃ w', Deletes d keys w w') ∨
      ∃ before key after err w₁ w₂, keys = before ++ key :: after ∧ Deletes d before w w₁ ∧
        done d (.delete key) w₁ = (.error err, w₂) := by
  induction keys generalizing w with
  | nil => exact .inl ⟨w, .nil w⟩
  | cons key keys ih =>
    rcases hdelete : done d (.delete key) w with ⟨err | _, w₁⟩
    · exact .inr ⟨[], key, keys, err, w, w₁, rfl, .nil w, hdelete⟩
    · rcases ih w₁ with ⟨w', hkeys⟩ | ⟨before, key', after, err, w₂, w₃, rfl, hbefore, hfails⟩
      · exact .inl ⟨w', .cons hdelete hkeys⟩
      · exact .inr ⟨key :: before, key', after, err, w₂, w₃, rfl, .cons hdelete hbefore, hfails⟩

section Steps

variable {d : Depot} {handle : Handle} (hphase : d.phase = .ready handle)

include hphase

theorem done_delete (key : String) (w : World) :
    done d (.delete key) w = (Access.delete (keyValue handle) key).exec w := by
  unfold done
  rw [withObjects_of_phase hphase]
  rfl

theorem done_deleteAll_nil (w : World) : done d (.deleteAll []) w = (.ok (), w) := by
  unfold done
  rw [withObjects_of_phase hphase]
  rfl

theorem done_deleteAll_cons (key : String) (keys : List String) (w : World) :
    done d (.deleteAll (key :: keys)) w =
      match done d (.delete key) w with
      | (.ok _, w₁) => done d (.deleteAll keys) w₁
      | (.error err, w₁) => (.error err, w₁) := by
  have hact (keys : List String) (w : World) : done d (.deleteAll keys) w =
      (Access.deleteAll (keyValue handle) keys).exec w := by
    unfold done
    rw [withObjects_of_phase hphase]
    rfl
  rw [hact, done_delete hphase, Access.deleteAll, Action.exec_bind]
  rcases (Access.delete (keyValue handle) key).exec w with ⟨err | _, w₁⟩
  · rfl
  · exact (hact keys w₁).symm

theorem done_deleteAll_of_deleted {key : String} {keys : List String} {w w₁ : World}
    (h : done d (.delete key) w = (.ok (), w₁)) :
    done d (.deleteAll (key :: keys)) w = done d (.deleteAll keys) w₁ := by
  rw [done_deleteAll_cons hphase, h]

theorem done_deleteAll_of_failed {key : String} {keys : List String} {w w₁ : World} {err : DepotError}
    (h : done d (.delete key) w = (.error err, w₁)) :
    done d (.deleteAll (key :: keys)) w = (.error err, w₁) := by
  rw [done_deleteAll_cons hphase, h]

/-- A removal does not change what is refused. -/
theorem sameSetting_delete (key : String) (w : World) :
    SameSetting handle w (done d (.delete key) w).2 := by
  have hconfined : Confined handle key (Access.delete (keyValue handle) key) := .delete
  rw [done_delete hphase]
  exact hconfined.setting w

/-! ## Keys that can all be removed -/

theorem Deletes.done_deleteAll {keys : List String} {w w' : World} (h : Deletes d keys w w') :
    done d (.deleteAll keys) w = (.ok (), w') := by
  induction h with
  | nil w => exact done_deleteAll_nil hphase w
  | cons hdelete _ ih => exact (done_deleteAll_of_deleted hphase hdelete).trans ih

theorem Deletes.content_eq {keys : List String} {w w' : World} (h : Deletes d keys w w') :
    content handle w' = (content handle w).withoutAll keys := by
  induction h with
  | nil w => exact (Table.withoutAll_nil _).symm
  | cons hdelete _ ih =>
    obtain ⟨-, hgone⟩ := without_of_done hphase hdelete
    rw [ih, hgone, ← Table.withoutAll_cons]

theorem Deletes.sameSetting {keys : List String} {w w' : World} (h : Deletes d keys w w') :
    SameSetting handle w w' := by
  induction h with
  | nil w => exact .refl handle w
  | @cons key keys w w₁ w₂ hdelete _ ih =>
    have hsetting := sameSetting_delete hphase key w
    rw [hdelete] at hsetting
    exact hsetting.trans ih

/-- The first key that cannot be removed gives the answer, whatever comes after it. -/
theorem Deletes.done_stopped {before : List String} {key : String} {err : DepotError} {w w₁ w₂ : World}
    (h : Deletes d before w w₁) (hfails : done d (.delete key) w₁ = (.error err, w₂))
    (after : List String) : done d (.deleteAll (before ++ key :: after)) w = (.error err, w₂) := by
  induction h with
  | nil w => exact done_deleteAll_of_failed hphase hfails
  | cons hdelete _ ih => exact (done_deleteAll_of_deleted hphase hdelete).trans (ih hfails)

/-! ## What the engine is asked for -/

/-- What a removal asks for, as it is noted down and as it is counted. -/
theorem asks_delete (key : String) (w : World) :
    Asks d (.delete key) w handle
      (callsOfRemoval (keyValue handle) key (fun k => Key.belongsTo k key) w) := by
  have hasks := asks_removal hphase (removes_delete key) w
  have hnoted := exec_noting_removeUnder (keyValue handle) key (fun k => Key.belongsTo k key) w
  have hsame := hasks.noted.symm.trans hnoted
  simp only [Prod.mk.injEq] at hsame
  rw [← hsame.2.2]
  exact hasks

omit hphase in
/-- Calls are noted down behind the calls so far. -/
theorem exec_noting_deleteAll_from {σ : Type} (kv : KeyValue σ) (keys : List String) (s : σ)
    (calls : List StoreCall) :
    (Access.deleteAll kv.noting keys).exec (s, calls) =
      (((Access.deleteAll kv.noting keys).exec (s, [])).1,
        (((Access.deleteAll kv.noting keys).exec (s, [])).2.1,
          calls ++ ((Access.deleteAll kv.noting keys).exec (s, [])).2.2)) := by
  induction keys generalizing s calls with
  | nil => simp [Access.deleteAll]
  | cons key keys ih =>
    have hdelete (calls : List StoreCall) := exec_noting_removeUnder_from kv key
      (fun k => Key.belongsTo k key) s calls
    simp only [Access.deleteAll, Action.exec_bind, Access.delete, hdelete, List.nil_append]
    rcases (removeUnder kv key fun k => Key.belongsTo k key).exec s with ⟨err | _, s'⟩
    · rfl
    · simp only [ih s' (calls ++ _), ih s' (callsOfRemoval _ _ _ _), List.append_assoc]

theorem Asks.of_deleted {key : String} {keys : List String} {w w₁ : World} {calls : List StoreCall}
    (h : done d (.delete key) w = (.ok (), w₁)) (hrest : Asks d (.deleteAll keys) w₁ handle calls) :
    Asks d (.deleteAll (key :: keys)) w handle
      (callsOfRemoval (keyValue handle) key (fun k => Key.belongsTo k key) w ++ calls) := by
  obtain ⟨hnoted, hcounted⟩ := asks_delete hphase key w
  rw [h] at hnoted hcounted
  have hdone : done d (.deleteAll (key :: keys)) w = done d (.deleteAll keys) w₁ :=
    done_deleteAll_of_deleted hphase h
  constructor
  case noted =>
    show (Access.delete (keyValue handle).noting key >>= fun _ =>
      Access.deleteAll (keyValue handle).noting keys).exec (w, []) = _
    have hkeys : (Access.deleteAll (keyValue handle).noting keys).exec (w₁, []) = _ := hrest.noted
    have hkey : (Access.delete (keyValue handle).noting key).exec (w, []) = _ := hnoted
    rw [Action.exec_bind, hkey]
    simp only
    rw [exec_noting_deleteAll_from, hkeys, hdone]
  case counted =>
    rw [hdone, hrest.counted, hcounted, Option.map_map]
    simp only [Function.comp_def, List.foldl_append]

theorem Asks.of_failed {key : String} {w w₁ : World} {err : DepotError}
    (h : done d (.delete key) w = (.error err, w₁)) (keys : List String) :
    Asks d (.deleteAll (key :: keys)) w handle
      (callsOfRemoval (keyValue handle) key (fun k => Key.belongsTo k key) w) := by
  obtain ⟨hnoted, hcounted⟩ := asks_delete hphase key w
  rw [h] at hnoted hcounted
  have hdone : done d (.deleteAll (key :: keys)) w = (.error err, w₁) :=
    done_deleteAll_of_failed hphase h
  constructor
  case noted =>
    show (Access.delete (keyValue handle).noting key >>= fun _ =>
      Access.deleteAll (keyValue handle).noting keys).exec (w, []) = _
    have hkey : (Access.delete (keyValue handle).noting key).exec (w, []) = _ := hnoted
    rw [Action.exec_bind, hkey, hdone]
  case counted => rw [hdone, hcounted]

theorem asks_deleteAll_nil (w : World) : Asks d (.deleteAll []) w handle [] := by
  have hdone := done_deleteAll_nil hphase w
  constructor
  case noted =>
    rw [hdone]
    rfl
  case counted =>
    rw [hdone]
    simp

theorem Deletes.asks {keys : List String} {w w' : World} (h : Deletes d keys w w') :
    Asks d (.deleteAll keys) w handle (callsOfEach d handle keys w) := by
  induction h with
  | nil w => exact asks_deleteAll_nil hphase w
  | cons hdelete _ ih =>
    rw [callsOfEach, hdelete]
    exact Asks.of_deleted hphase hdelete ih

/-- Behind the first key that cannot be removed the engine is asked for nothing. -/
theorem Deletes.asks_stopped {before : List String} {key : String} {err : DepotError} {w w₁ w₂ : World}
    (h : Deletes d before w w₁) (hfails : done d (.delete key) w₁ = (.error err, w₂))
    (after : List String) :
    Asks d (.deleteAll (before ++ key :: after)) w handle (callsOfEach d handle (before ++ [key]) w) := by
  induction h with
  | nil w =>
    rw [List.nil_append, List.nil_append, callsOfEach, callsOfEach, List.append_nil]
    exact Asks.of_failed hphase hfails after
  | cons hdelete _ ih =>
    rw [List.cons_append, List.cons_append, callsOfEach, hdelete]
    exact Asks.of_deleted hphase hdelete (ih hfails)

end Steps

/-! ## Other orders -/

section Orders

variable {d : Depot} {handle : Handle} {w : World}

/-- Behind a handle that can be read is an engine that is open. -/
theorem exists_open_of_granted (h : scanRefusal? handle w = none) :
    ∃ e, w.engines.get? handle.engine = some e ∧ e.isClosed = false := by
  unfold scanRefusal? at h
  split at h
  · cases h
  · cases he : w.engines.get? handle.engine with
    | none => simp [he] at h
    | some e => exact ⟨e, rfl, by simpa [he] using h⟩

/-- A delete that no switch refuses for one of its keys alone is refused by none. -/
theorem blocks_delete_eq_false {keys : List Bytes} (hne : keys ≠ []) :
    blocks handle (.delete keys) w = false ↔ ∀ k ∈ keys, blocks handle (.delete [k]) w = false := by
  obtain ⟨k, others, rfl⟩ := List.exists_cons_of_ne_nil hne
  unfold blocks
  cases faults? handle w with
  | none => simp
  | some faults =>
    simp only [Option.any_some, Faults.blocks]
    cases faults.delete with
    | false => cases faults.deleteUnder <;> simp
    | true =>
      -- Where all deletes fail, the delete of the first key alone does.
      constructor
      · intro h
        cases h
      · intro h
        cases h k List.mem_cons_self

/-- A batch that no switch refuses is granted by an engine that can be read, if it can be written. -/
theorem refusal?_eq_none {call : EngineCall} {batch : Batch} (hgranted : scanRefusal? handle w = none)
    (hfree : blocks handle call w = false)
    (hfits : ∀ e, w.engines.get? handle.engine = some e → e.directory?.isSome →
      Log.payloadLength batch < UInt32.size) : refusal? handle call batch w = none := by
  obtain ⟨e, he, hopen⟩ := exists_open_of_granted hgranted
  have hwrite : ∃ written, e.write batch w.disk = .ok written := by
    unfold Engine.write
    rw [hopen]
    cases hbacking : e.backing with
    | memory => cases batch.isEmpty <;> exact ⟨_, rfl⟩
    | directory place length =>
      obtain ⟨record, hrecord⟩ := Log.exists_encode_iff.mpr
        (hfits e he (by simp [Engine.directory?, hbacking]))
      rw [hrecord]
      cases batch.isEmpty <;> exact ⟨_, rfl⟩
  obtain ⟨written, hwrite⟩ := hwrite
  simp [refusal?, hfree, he, hwrite]

/-- A batch that no record can hold is refused by an engine on disk. -/
theorem refusal?_isSome_of_overlong {e : Engine} {call : EngineCall} {batch : Batch}
    (he : w.engines.get? handle.engine = some e) (hdirectory : e.directory?.isSome)
    (hne : batch.isEmpty = false) (hlong : ¬ Log.payloadLength batch < UInt32.size) :
    (refusal? handle call batch w).isSome := by
  have hwrite : ∃ err, e.write batch w.disk = .error err := by
    unfold Engine.write
    rw [hne]
    cases hbacking : e.backing with
    | memory => simp [Engine.directory?, hbacking] at hdirectory
    | directory place length =>
      cases hrecord : Log.encode batch with
      | ok record => exact absurd (Log.exists_encode_iff.mp ⟨record, hrecord⟩) hlong
      | error err => cases e.isClosed <;> exact ⟨_, rfl⟩
  obtain ⟨err, hwrite⟩ := hwrite
  unfold refusal?
  split
  · rfl
  · simp [he, hwrite]

/-- What a removal finds are the keys of what belongs to its key. -/
theorem found_eq_keys (handle : Handle) (key : String) (w : World) :
    found handle key (fun k => Key.belongsTo k key) w = ((content handle w).under key).keys := by
  have hfilter : found handle key (fun k => Key.belongsTo k key) w =
      (((content handle w).scan (Utf8.encode key)).filter fun e => Key.belongsTo e.key key).map
        Entry.key := List.filter_map
  rw [hfilter, Table.filter_scan_belongsTo, List.map_map]
  rfl

theorem mem_keys_under {t : Table} {key : String} {k : Bytes} :
    k ∈ (t.under key).keys ↔ (t.get? k).isSome ∧ Key.belongsTo k key = true := by
  rw [SortedMap.mem_keys_iff, Table.get?_under]
  cases Key.belongsTo k key <;> simp

/-- The keys below a key are all the stored keys that belong to it. -/
theorem keys_under_perm {t : Table} {key : String} {ks : List Bytes} (hnodup : ks.Nodup)
    (h : ∀ k, k ∈ ks ↔ t.contains k = true ∧ Key.belongsTo k key = true) :
    (t.under key).keys.Perm ks :=
  (List.perm_ext_iff_of_nodup (SortedMap.nodup_keys _) hnodup).mpr fun k =>
    mem_keys_under.trans (h k).symm

/-- Where less is stored, no more is found. -/
theorem keys_under_withoutAll (t : Table) (gone : List String) (key : String) :
    ((t.withoutAll gone).under key).keys.Sublist (t.under key).keys := by
  have hentries : ((t.withoutAll gone).under key).entries =
      (t.under key).entries.filter fun e => gone.all fun key => !Key.belongsTo e.1 key := by
    show (t.entries.filter _).filter _ = (t.entries.filter _).filter _
    rw [List.filter_filter, List.filter_filter]
    simp only [Bool.and_comm]
  unfold SortedMap.keys
  rw [hentries]
  exact List.Sublist.map Prod.fst List.filter_sublist

variable (hphase : d.phase = .ready handle)

include hphase

/-- A key can be removed if the engine can be read, no switch refuses what belongs to the key, and its
removal can be written. -/
theorem done_delete_eq_ok {key : String} (hgranted : scanRefusal? handle w = none)
    (hfree : ∀ k ∈ ((content handle w).under key).keys, blocks handle (.delete [k]) w = false)
    (hfits : FitsLog handle [key] w) : ∃ w', done d (.delete key) w = (.ok (), w') := by
  have hdone := done_removal hphase (removes_delete key) w
  rw [found_eq_keys] at hdone
  simp only [hgranted] at hdone
  by_cases hnil : ((content handle w).under key).keys = []
  · rw [if_pos hnil] at hdone
    exact ⟨_, hdone⟩
  · have hrefusal : refusal? handle (.delete ((content handle w).under key).keys)
        (.delete ((content handle w).under key).keys) w = none :=
      refusal?_eq_none hgranted ((blocks_delete_eq_false hnil).mpr hfree)
        fun e he hdirectory => hfits e he hdirectory key List.mem_cons_self
    rw [if_neg hnil, hrefusal] at hdone
    exact ⟨_, hdone⟩

/-- What could be removed was free to go. -/
theorem free_of_done_delete {key : String} {w' : World} (h : done d (.delete key) w = (.ok (), w')) :
    scanRefusal? handle w = none ∧
      ∀ k ∈ ((content handle w).under key).keys, blocks handle (.delete [k]) w = false := by
  obtain ⟨hremoves, -⟩ := without_of_done hphase h
  have hgranted : scanRefusal? handle w = none := by
    rw [← Option.not_isSome_iff_eq_none]
    exact fun hsome => hremoves (.scan hsome)
  refine ⟨hgranted, ?_⟩
  by_cases hnil : ((content handle w).under key).keys = []
  · simp [hnil]
  · rw [← blocks_delete_eq_false hnil, ← Bool.not_eq_true]
    intro hblocked
    refine hremoves (.delete _ (found_eq_keys handle key w).symm hnil ?_)
    simp [refusal?, hblocked]

/-- No switch refuses what belongs to one of the keys. -/
def Free (handle : Handle) (keys : List String) (w : World) : Prop :=
  ∀ key ∈ keys, ∀ k ∈ ((content handle w).under key).keys, blocks handle (.delete [k]) w = false

/-- Where all keys can be removed in some order, everything that belongs to them is free to go. -/
theorem Deletes.free {keys : List String} {w w' : World} (h : Deletes d keys w w') :
    Free handle keys w := by
  induction h with
  | nil w => exact fun key hkey => nomatch hkey
  | @cons key keys w w₁ w₂ hdelete _ ih =>
    obtain ⟨-, hfree⟩ := free_of_done_delete hphase hdelete
    obtain ⟨-, hgone⟩ := without_of_done hphase hdelete
    have hsetting := sameSetting_delete hphase key w
    rw [hdelete] at hsetting
    intro key' hkey' k hk
    obtain ⟨hstored, hbelongs⟩ := mem_keys_under.mp hk
    -- An entry goes with the first key, or it is still there when its own key comes.
    by_cases hfirst : Key.belongsTo k key = true
    · exact hfree k (mem_keys_under.mpr ⟨hstored, hfirst⟩)
    · have hlater : key' ∈ keys := by
        rcases List.mem_cons.mp hkey' with rfl | hlater
        · exact absurd hbelongs hfirst
        · exact hlater
      rw [hsetting.blocks]
      refine ih key' hlater k (mem_keys_under.mpr ⟨?_, hbelongs⟩)
      rw [hgone, Table.get?_without, if_neg hfirst]
      exact hstored

omit hphase in
/-- What the removals before it leave can be written if what was there before them could be. -/
theorem FitsLog.withoutAll {keys gone : List String} {w w₁ : World} (h : FitsLog handle keys w)
    (hsetting : SameSetting handle w w₁)
    (hgone : content handle w₁ = (content handle w).withoutAll gone) : FitsLog handle keys w₁ := by
  intro e₁ he₁ hdirectory key hkey
  have hcondition := hsetting.condition
  rw [he₁, Option.map_some] at hcondition
  obtain ⟨e, he, hsame⟩ := Option.map_eq_some_iff.mp hcondition
  have hkept : e.directory?.isSome := (congrArg Prod.snd hsame).trans hdirectory
  rw [hgone]
  exact Nat.lt_of_le_of_lt
    (Log.deleteLength_le_of_sublist (keys_under_withoutAll (content handle w) gone key))
    (h e he hkept key hkey)

/-- Where all keys can be removed in some order, every other order stops only at a removal that no record
can hold. -/
theorem Deletes.overlong {keys before : List String} {key : String} {err : DepotError}
    {w w' w₁ w₂ : World} (h : Deletes d keys w w') (hkey : key ∈ keys) (hbefore : Deletes d before w w₁)
    (hfails : done d (.delete key) w₁ = (.error err, w₂)) : ¬ FitsLog handle [key] w₁ := by
  intro hfits
  have hsetting := hbefore.sameSetting hphase
  have hgone := hbefore.content_eq hphase
  have hfree := h.free hphase
  have hgranted : scanRefusal? handle w = none := by
    cases h with
    | nil => cases hkey
    | cons hdelete _ => exact (free_of_done_delete hphase hdelete).1
  -- The removals before it leave the setting as it is, and no more entries than there were.
  obtain ⟨w₃, hdone⟩ := done_delete_eq_ok hphase (hsetting.scanRefusal?_eq ▸ hgranted) (fun k hk => by
    rw [hgone] at hk
    rw [← hsetting.blocks]
    exact hfree key hkey k ((keys_under_withoutAll (content handle w) before key).subset hk)) hfits
  rw [hfails] at hdone
  cases hdone

/-- The same keys can be removed in every order, and with or without repetitions. -/
theorem Deletes.reordered {keys keys' : List String} {w w' : World} (h : Deletes d keys w w')
    (hfits : FitsLog handle keys w) (hsame : ∀ key, key ∈ keys' ↔ key ∈ keys) :
    ∃ w'', Deletes d keys' w w'' := by
  rcases deletes_or_stops d keys' w with hall | ⟨before, key, after, err, w₁, w₂, heq, hbefore, hfails⟩
  · exact hall
  · have hkey : key ∈ keys := (hsame key).mp (by simp [heq])
    have hfitsKey : FitsLog handle [key] w := by
      intro e he hdirectory key' hkey'
      rw [List.mem_singleton.mp hkey']
      exact hfits e he hdirectory key hkey
    have hfits₁ := hfitsKey.withoutAll (hbefore.sameSetting hphase) (hbefore.content_eq hphase)
    exact absurd hfits₁ (h.overlong hphase hkey hbefore hfails)

/-- What no record can hold cannot be removed from an engine on disk. -/
theorem exists_error_of_overlong {key : String} {e : Engine}
    (he : w.engines.get? handle.engine = some e) (hdirectory : e.directory?.isSome)
    (hlong : ¬ Log.deleteLength ((content handle w).under key).keys < UInt32.size) :
    ∃ err w₁, done d (.delete key) w = (.error (.storage err), w₁) ∧ Untouched w w₁ := by
  have hdone := done_removal hphase (removes_delete key) w
  rw [found_eq_keys] at hdone
  cases hgranted : scanRefusal? handle w with
  | some err =>
    simp only [hgranted] at hdone
    exact ⟨err, _, hdone, untouched_counted handle _ w⟩
  | none =>
    have hne : ((content handle w).under key).keys ≠ [] := by
      intro hnil
      rw [hnil] at hlong
      exact hlong (by decide)
    have hrefused : (refusal? handle (.delete ((content handle w).under key).keys)
        (.delete ((content handle w).under key).keys) w).isSome :=
      refusal?_isSome_of_overlong he hdirectory (by simpa [Batch.isEmpty] using hne) hlong
    obtain ⟨err, hrefusal⟩ := Option.isSome_iff_exists.mp hrefused
    simp only [hgranted, if_neg hne, hrefusal] at hdone
    exact ⟨err, _, hdone, (untouched_counted handle _ w).trans (untouched_counted handle _ _)⟩

end Orders

/-! ## Where the order decides -/

section Crowds

variable {d : Depot} {handle : Handle} {w : World}

/-- Two keys of a group are all that is stored. The engine is on disk, and the delete of each of the keys
can be written, but not that of both. -/
structure Crowded (handle : Handle) (group first second : String) (w : World) : Prop where
  healthy : Healthy handle w
  onDisk : ∃ e, w.engines.get? handle.engine = some e ∧ e.directory?.isSome
  stored : ∀ k, (content handle w).contains k = true ↔ k = Utf8.encode first ∨ k = Utf8.encode second
  firstBelow : Key.belongsTo (Utf8.encode first) group = true
  secondBelow : Key.belongsTo (Utf8.encode second) group = true
  apart : Key.belongsTo (Utf8.encode second) first = false
  firstFits : Log.deleteLength [Utf8.encode first] < UInt32.size
  secondFits : Log.deleteLength [Utf8.encode second] < UInt32.size
  overlong : ¬ Log.deleteLength [Utf8.encode first, Utf8.encode second] < UInt32.size

namespace Crowded

variable {group first second : String}

theorem ne (h : Crowded handle group first second w) : Utf8.encode first ≠ Utf8.encode second := by
  intro heq
  have hself := Key.belongsTo_self first
  rw [heq, h.apart] at hself
  cases hself

theorem keys_group (h : Crowded handle group first second w) :
    ((content handle w).under group).keys.Perm [Utf8.encode first, Utf8.encode second] := by
  apply keys_under_perm (by simp [h.ne])
  intro k
  rw [h.stored]
  constructor
  · intro hk
    rcases List.mem_pair.mp hk with rfl | rfl
    · exact ⟨.inl rfl, h.firstBelow⟩
    · exact ⟨.inr rfl, h.secondBelow⟩
  · rintro ⟨hk, -⟩
    exact List.mem_pair.mpr hk

theorem keys_first (h : Crowded handle group first second w) :
    ((content handle w).under first).keys.Perm [Utf8.encode first] := by
  apply keys_under_perm (by simp)
  intro k
  rw [h.stored, List.mem_singleton]
  constructor
  · rintro rfl
    exact ⟨.inl rfl, Key.belongsTo_self first⟩
  · rintro ⟨rfl | rfl, hbelongs⟩
    · rfl
    · rw [h.apart] at hbelongs
      cases hbelongs

/-- Without the first key the second is left. -/
theorem keys_without (h : Crowded handle group first second w) :
    (((content handle w).without first).under group).keys.Perm [Utf8.encode second] := by
  apply keys_under_perm (by simp)
  intro k
  rw [SortedMap.contains, Table.get?_without, List.mem_singleton]
  constructor
  · rintro rfl
    rw [h.apart, if_neg Bool.false_ne_true]
    exact ⟨(h.stored _).mpr (.inr rfl), h.secondBelow⟩
  · rintro ⟨hk, -⟩
    by_cases hbelongs : Key.belongsTo k first = true
    · simp [hbelongs] at hk
    · rw [if_neg hbelongs] at hk
      rcases (h.stored k).mp hk with rfl | rfl
      · exact absurd (Key.belongsTo_self first) hbelongs
      · rfl

/-- After the first key the group can be removed. -/
theorem deletes (h : Crowded handle group first second w) (hphase : d.phase = .ready handle) :
    ∃ w', Deletes d [first, group] w w' := by
  have hfree := unblocked_iff.mp h.healthy.unblocked
  have hfits : FitsLog handle [first] w := fun e _ _ key hkey => by
    rw [List.mem_singleton.mp hkey, Log.deleteLength_perm h.keys_first]
    exact h.firstFits
  obtain ⟨w₁, hfirst⟩ := done_delete_eq_ok hphase h.healthy.granted (fun k _ => hfree _) hfits
  obtain ⟨-, hgone⟩ := without_of_done hphase hfirst
  have hsetting := sameSetting_delete hphase first w
  rw [hfirst] at hsetting
  have hfits₁ : FitsLog handle [group] w₁ := fun e _ _ key hkey => by
    rw [List.mem_singleton.mp hkey, hgone, Log.deleteLength_perm h.keys_without]
    exact h.secondFits
  obtain ⟨w', hgroup⟩ := done_delete_eq_ok hphase (hsetting.scanRefusal?_eq ▸ h.healthy.granted)
    (fun k _ => (hsetting.blocks _).symm.trans (hfree _)) hfits₁
  exact ⟨w', .cons hfirst (.cons hgroup (.nil w'))⟩

/-- Before the first key the group cannot be removed, and nothing is. -/
theorem stuck (h : Crowded handle group first second w) (hphase : d.phase = .ready handle) :
    ∃ err w', done d (.deleteAll [group, first]) w = (.error (.storage err), w') ∧ Untouched w w' := by
  obtain ⟨e, he, hdirectory⟩ := h.onDisk
  have hlong : ¬ Log.deleteLength ((content handle w).under group).keys < UInt32.size := by
    rw [Log.deleteLength_perm h.keys_group]
    exact h.overlong
  obtain ⟨err, w', hfails, huntouched⟩ := exists_error_of_overlong hphase he hdirectory hlong
  exact ⟨err, w', done_deleteAll_of_failed hphase hfails, huntouched⟩

end Crowded

end Crowds

/-! ## Batches of keys -/

/-- A delete of several keys through a depot that is ready removes them one after the other. It stops at
the first that cannot be removed, with the answer of that removal, and what the keys before it have removed
stays removed. If there is none, everything that belongs to a key is gone, and neither the order of the
keys nor their repetitions matter where the removal of each key alone can be written. -/
theorem outcome_of_batch {d : Depot} {handle : Handle} (hphase : d.phase = .ready handle)
    (keys : List String) (w : World) : BatchOutcome d handle keys w where
  total := deletes_or_stops d keys w
  stopped := by
    rintro before key after err w₁ w₂ rfl hbefore hfails
    obtain ⟨-, huntouched⟩ := removalFails_of_done hphase hfails
    refine ⟨hbefore.done_stopped hphase hfails after, ?_, hbefore.asks_stopped hphase hfails after⟩
    rw [huntouched.content_eq, hbefore.content_eq hphase]
  finished w' h := ⟨h.done_deleteAll hphase, h.content_eq hphase, h.asks hphase⟩
  reordered := by
    intro w' h hfits keys' hsame
    obtain ⟨w'', h'⟩ := h.reordered hphase hfits hsame
    refine ⟨w'', h'.done_deleteAll hphase, ?_⟩
    rw [h'.content_eq hphase, h.content_eq hphase, Table.withoutAll_congr _ hsame]
  overlong := by
    rintro w' h keys' hsame before key after err w₁ w₂ rfl hbefore hfails
    exact h.overlong hphase ((hsame key).mp (by simp)) hbefore hfails

/-- Three objects are stored, and then deletes of one of them are switched off. -/
def blockedDeletes : List Call :=
  oneWrite ++ [.edit "s" (.put (DataObject.sample "g1" 1)), .edit "s" (.put (DataObject.sample "g2" 1)),
    .setFaults "m" { deleteUnder := some (Utf8.encode "udmf://drag/com.example.test/g1") }]

/-- Keys that are repeated, that have nothing stored below them, and one below which all others lie. -/
def mixedKeys : List String :=
  ["udmf://drag/com.example.test/g", "udmf://drag/com.example.test/g", "udmf://drag/none",
    "udmf://drag", "udmf://drag/com.example.test/g2"]

/-- The key above all objects cannot be removed, because one of them cannot. The last object, whose key
comes later, is there as before. -/
theorem outcome_of_batch_blocked :
    let w := run {} blockedDeletes
    ∃ d handle, w.depots.get? "s" = some d ∧ d.phase = .ready handle ∧
      BatchOutcome d handle mixedKeys w ∧ statusOf d (.deleteAll mixedKeys) w = .database ∧
      ((content handle (done d (.deleteAll mixedKeys) w).2).get?
        (Utf8.encode "udmf://drag/com.example.test/g2")).isSome := by
  intro w
  have hready : (w.depots.get? "s").any (fun d => d.handle?.any fun handle =>
      decide (statusOf d (.deleteAll mixedKeys) w = .database) &&
        ((content handle (done d (.deleteAll mixedKeys) w).2).get?
          (Utf8.encode "udmf://drag/com.example.test/g2")).isSome) = true := by
    decide +kernel
  obtain ⟨d, hd, hhandle⟩ := (Option.any_eq_true _ _).mp hready
  obtain ⟨handle, hhandle, hstopped⟩ := (Option.any_eq_true _ _).mp hhandle
  obtain ⟨hstatus, hstored⟩ := Bool.and_eq_true_iff.mp hstopped
  have hphase : d.phase = .ready handle := Depot.handle?_eq_some_iff.mp hhandle
  exact ⟨d, handle, hd, hphase, outcome_of_batch hphase mixedKeys w, of_decide_eq_true hstatus,
    hstored⟩

/-- The group of the long keys. -/
def longGroup : String := "udmf://drag/com.example.test/g"

/-- A member key of the group: its record id is one letter so many times. -/
def longKey (letter : Char) (n : Nat) : String :=
  Key.member longGroup (String.ofList (List.replicate n letter))

theorem length_longKey {letter : Char} {b : UInt8} (h : String.utf8EncodeChar letter = [b]) (n : Nat) :
    (Utf8.encode (longKey letter n)).length = n + 31 := by
  have hgroup : (Utf8.encode longGroup).length = 30 := by decide +kernel
  rw [longKey, Key.encode_member, Utf8.encode_replicate h, List.length_append, List.length_cons,
    List.length_replicate, hgroup]
  omega

/-- A depot on disk is opened. -/
def opened : List Call :=
  [.addManager "m" "app" "user" none false false, .addDepot "s" "m" "drag" { base := "/b" },
    .start "s"]

/-- Stores a key without value in the engine of that depot. -/
def putKey (key : String) (w : World) : World :=
  ((put (.direct 1) [{ key := Utf8.encode key, value := [] }]).exec w).2

/-- Two long keys of one group are stored, one after the other. -/
def crowded (n : Nat) : World :=
  putKey (longKey 'b' n) (putKey (longKey 'a' n) (run {} opened))

/-- What a put of a short enough key leaves. -/
structure PutsKey (key : String) (w w' : World) : Prop where
  healthy : Healthy (.direct 1) w'
  setting : SameSetting (.direct 1) w w'
  content : content (.direct 1) w' =
    (content (.direct 1) w).applyPut [{ key := Utf8.encode key, value := [] }]
  depots : w'.depots = w.depots

theorem putsKey {key : String} {w : World} (hw : Healthy (.direct 1) w)
    (hfits : (Utf8.encode key).length + 12 < UInt32.size) : PutsKey key w (putKey key w) := by
  have hrefusal : refusal? (.direct 1) .put (.put [{ key := Utf8.encode key, value := [] }]) w = none := by
    refine refusal?_eq_none hw.granted (unblocked_iff.mp hw.unblocked .put) fun _ _ _ => ?_
    simp only [Log.payloadLength, Log.entryLength, List.map_cons, List.map_nil, List.sum_cons,
      List.sum_nil, List.length_nil]
    omega
  have hexec := exec_put_eq (.direct 1) [{ key := Utf8.encode key, value := [] }] w
  simp only [hrefusal] at hexec
  unfold putKey
  rw [hexec]
  exact
    { healthy := (hw.counted .put).applied _
      setting := (SameSetting.counted _ .put w).trans (.applied _ _ _)
      content := content_applied hrefusal
      depots := by
        unfold applied
        split
        · rfl
        · split <;> rfl }

/-- The keys may be so long that a record can hold each of them and not both. -/
theorem crowded_of_long {n : Nat} (hn : 0 < n) (hfits : n + 43 < UInt32.size)
    (hlong : UInt32.size ≤ 2 * n + 74) :
    Crowded (.direct 1) longGroup (longKey 'a' n) (longKey 'b' n) (crowded n) ∧
      (crowded n).depots = (run {} opened).depots := by
  have ha : String.utf8EncodeChar 'a' = [97] := by decide +kernel
  have hb : String.utf8EncodeChar 'b' = [98] := by decide +kernel
  have hlengthA := length_longKey ha n
  have hlengthB := length_longKey hb n
  have hopened : Healthy (.direct 1) (run {} opened) := ⟨by decide +kernel, trivial⟩
  have hempty : content (.direct 1) (run {} opened) = ∅ := by decide +kernel
  have hdisk : ∃ e, (run {} opened).engines.get? 1 = some e ∧ e.directory?.isSome := by
    decide +kernel
  have hfirst := putsKey hopened (by rw [hlengthA]; omega)
  have hsecond := @putsKey (longKey 'b' n) _ hfirst.healthy (by rw [hlengthB]; omega)
  have hcontent : content (.direct 1) (crowded n) = _ := hsecond.content
  rw [hfirst.content, hempty] at hcontent
  refine ⟨?_, hsecond.depots.trans hfirst.depots⟩
  constructor
  case healthy => exact hsecond.healthy
  case onDisk =>
    have hcondition := (hfirst.setting.trans hsecond.setting).condition
    obtain ⟨e, he, hdirectory⟩ := hdisk
    rw [show (Handle.direct 1).engine = 1 from rfl, he, Option.map_some] at hcondition
    obtain ⟨e', he', hsame⟩ := Option.map_eq_some_iff.mp hcondition.symm
    exact ⟨e', he', (congrArg Prod.snd hsame).trans hdirectory⟩
  case stored =>
    intro k
    have hnone : (∅ : Table).contains k = false := rfl
    rw [hcontent, Table.contains_applyPut, Table.contains_applyPut, hnone]
    simp [eq_comm, or_comm]
  case firstBelow => exact Key.belongsTo_member _ _
  case secondBelow => exact Key.belongsTo_member _ _
  case apart =>
    rw [← Bool.not_eq_true]
    intro hbelongs
    rcases Key.belongsTo_iff.mp hbelongs with heq | ⟨rest, heq⟩
    · have huid := congrArg Utf8.encode (Key.member_injective heq)
      rw [Utf8.encode_replicate hb, Utf8.encode_replicate ha, List.replicate_inj] at huid
      exact absurd (huid.2.resolve_left (Nat.ne_of_gt hn)) (by decide)
    · have hlength := congrArg List.length heq
      rw [List.length_append, hlengthB, hlengthA, List.length_cons] at hlength
      omega
  all_goals
    simp only [Log.deleteLength, List.map_cons, List.map_nil, List.sum_cons, List.sum_nil, hlengthA,
      hlengthB]
    omega

/-- With one of the keys in front the group can be removed after it, and with the group in front nothing
can be removed. -/
theorem stuck_of_long {n : Nat} (hn : 0 < n) (hfits : n + 43 < UInt32.size)
    (hlong : UInt32.size ≤ 2 * n + 74) :
    ∃ d handle, (crowded n).depots.get? "s" = some d ∧ d.phase = .ready handle ∧
      (∃ w', Deletes d [longKey 'a' n, longGroup] (crowded n) w' ∧
        done d (.deleteAll [longKey 'a' n, longGroup]) (crowded n) = (.ok (), w')) ∧
      ∃ err w', done d (.deleteAll [longGroup, longKey 'a' n]) (crowded n) = (.error err, w') ∧
        Untouched (crowded n) w' := by
  obtain ⟨hcrowded, hdepots⟩ := crowded_of_long hn hfits hlong
  have hready : ((run {} opened).depots.get? "s").any fun d =>
      decide (d.handle? = some (.direct 1)) := by
    decide +kernel
  obtain ⟨d, hd, hhandle⟩ := (Option.any_eq_true _ _).mp hready
  have hphase : d.phase = .ready (.direct 1) :=
    Depot.handle?_eq_some_iff.mp (of_decide_eq_true hhandle)
  rw [← hdepots] at hd
  obtain ⟨w', hdeletes⟩ := hcrowded.deletes hphase
  obtain ⟨err, w'', hstuck⟩ := hcrowded.stuck hphase
  exact ⟨d, .direct 1, hd, hphase, ⟨w', hdeletes, hdeletes.done_deleteAll hphase⟩, .storage err, w'',
    hstuck⟩

/-- Two to the 31 letters. -/
def letters : Nat := 2147483648

/-- Without a condition on what a record can hold the order of the keys may decide, with no switch on: a
long key and then its group can be removed from an engine on disk, and the group and then the key cannot. -/
theorem stuck_of_batch :
    ∃ d handle, (crowded letters).depots.get? "s" = some d ∧ d.phase = .ready handle ∧
      (∃ w', Deletes d [longKey 'a' letters, longGroup] (crowded letters) w' ∧
        done d (.deleteAll [longKey 'a' letters, longGroup]) (crowded letters) = (.ok (), w')) ∧
      ∃ err w', done d (.deleteAll [longGroup, longKey 'a' letters]) (crowded letters) =
          (.error err, w') ∧ Untouched (crowded letters) w' :=
  stuck_of_long (by decide) (by decide) (by decide)

end World

end ObjectStore
