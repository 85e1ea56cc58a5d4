import ObjectStore.Object.Sample
import ObjectStore.Proofs.Depot.Calls
import ObjectStore.Proofs.World.Answers
import ObjectStore.Proofs.World.Healthy
import ObjectStore.Proofs.World.Isolation

/-!
# Groups do not interfere

What is done to one group is confined to it: in two worlds that agree on the group and refuse the same
calls it is answered the same and leaves the same entries of the group, and it leaves every other entry
as it is. The values may be any bytes, and the scans behind it do find keys of other groups that only
start alike. Changes to different groups therefore commute.

`Confined` says this of one action. It is kept by doing one thing after the other, so that it is enough
to look at what asks the engine: at reading what belongs to the group, and at batches of keys that belong
to it.

Main statement: `confined_to_group`.
-/

namespace ObjectStore

/-- The group that a change is about, if it is about one. -/
def Access.Edit.group? : Access.Edit → Option String
  | .put o => o.groupKey?
  | .update o => o.groupKey?
  | .delete key => some key
  | .deleteAll _ => none
  | .clear => none

/-! ## Tables -/

/-- The keys that a batch is about. -/
def Batch.keys : Batch → List Bytes
  | .put entries => entries.map Entry.key
  | .delete keys => keys

namespace Table

variable {g : String} {t u : Table}

theorem get?_without (t : Table) (g : String) (k : Bytes) :
    (t.without g).get? k = if Key.belongsTo k g then none else t.get? k := by
  rw [without, SortedMap.get?_filter]
  cases Key.belongsTo k g <;> cases t.get? k <;> simp [Option.filter]

/-- A batch does to the keys of a group what it does to the whole table. -/
theorem under_apply {b : Batch} (hb : ∀ k ∈ b.keys, Key.belongsTo k g = true) (t : Table) :
    (t.apply b).under g = (t.under g).apply b := by
  cases b with
  | put entries => exact under_applyPut_self fun e he => hb _ (List.mem_map_of_mem he)
  | delete keys =>
      apply SortedMap.ext_get?
      intro k
      show ((t.applyDelete keys).under g).get? k = ((t.under g).applyDelete keys).get? k
      rw [get?_under, get?_applyDelete, get?_applyDelete, get?_under]
      by_cases hmem : k ∈ keys <;> simp [hmem]

/-- A batch of keys of a group leaves all other entries. -/
theorem without_apply {b : Batch} (hb : ∀ k ∈ b.keys, Key.belongsTo k g = true) (t : Table) :
    (t.apply b).without g = t.without g := by
  apply SortedMap.ext_get?
  intro k
  rw [get?_without, get?_without]
  cases hbelongs : Key.belongsTo k g with
  | true => rfl
  | false =>
      cases b with
      | put entries =>
          simp only [Bool.false_eq_true, if_false]
          exact get?_applyPut_of_not_belongsTo hbelongs fun e he => hb _ (List.mem_map_of_mem he)
      | delete keys =>
          have hnot : k ∉ keys := by
            intro hmem
            rw [hb k hmem] at hbelongs
            cases hbelongs
          simp only [Bool.false_eq_true, if_false]
          show (t.applyDelete keys).get? k = t.get? k
          rw [get?_applyDelete, if_neg hnot]

/-- Two groups have no entry in common, so that what is outside of the one holds all of the other. -/
theorem under_of_without_eq {g' : String} (hg : (ObjectKey.parse? g).isSome)
    (hg' : (ObjectKey.parse? g').isSome) (hne : g ≠ g') (h : t.without g = u.without g) :
    t.under g' = u.under g' := by
  have hapart (t : Table) : (t.without g).under g' = t.under g' := under_without_of_ne hg' hg hne
  rw [← hapart t, ← hapart u, h]

theorem get?_of_under_eq (h : t.under g = u.under g) {k : Bytes} (hk : Key.belongsTo k g = true) :
    t.get? k = u.get? k := by
  have hget := congrArg (SortedMap.get? · k) h
  simpa [get?_under, hk] using hget

theorem get?_of_without_eq (h : t.without g = u.without g) {k : Bytes}
    (hk : Key.belongsTo k g = false) : t.get? k = u.get? k := by
  have hget := congrArg (SortedMap.get? · k) h
  simpa [get?_without, hk] using hget

end Table

/-- What decides which batches an engine refuses: whether it is open, and whether it keeps a log. -/
def Engine.condition (e : Engine) : Bool × Bool :=
  (e.isClosed, e.directory?.isSome)

/-- An accepted batch does not change what an engine refuses. -/
theorem Engine.condition_of_write {e e' : Engine} {b : Batch} {disk disk' : Disk}
    (h : e.write b disk = .ok (e', disk')) : e'.condition = e.condition := by
  obtain ⟨hopen, hopen', hdirectory, -⟩ := table_of_write h
  simp [condition, hopen, hopen', hdirectory]

/-- Engines in the same condition refuse the same batches, for the same reasons. -/
theorem Engine.map_write_congr {e e' : Engine} (h : e.condition = e'.condition) (b : Batch)
    (disk disk' : Disk) : (e.write b disk).map (fun _ => ()) = (e'.write b disk').map fun _ => () := by
  obtain ⟨hclosed, hdirectory⟩ := Prod.mk.injEq .. ▸ h
  unfold write
  rw [hclosed]
  cases e'.isClosed with
  | true => rfl
  | false =>
      cases b.isEmpty with
      | true => rfl
      | false =>
          cases he : e.backing <;> cases he' : e'.backing <;>
            simp [directory?, he, he'] at hdirectory
          · rfl
          · cases Log.encode b <;> rfl

namespace World

open ObjectStore.Action

/-! ## Worlds that look alike -/

/-- Two worlds refuse the same calls through a handle. -/
structure SameSetting (handle : Handle) (w w' : World) : Prop where
  blocks : ∀ call, blocks handle call w = blocks handle call w'
  condition : (w.engines.get? handle.engine).map Engine.condition =
    (w'.engines.get? handle.engine).map Engine.condition

namespace SameSetting

variable {handle : Handle} {w w' w'' : World}

theorem refl (handle : Handle) (w : World) : SameSetting handle w w := ⟨fun _ => rfl, rfl⟩

theorem symm (h : SameSetting handle w w') : SameSetting handle w' w :=
  ⟨fun call => (h.blocks call).symm, h.condition.symm⟩

theorem trans (h : SameSetting handle w w') (h' : SameSetting handle w' w'') :
    SameSetting handle w w'' :=
  ⟨fun call => (h.blocks call).trans (h'.blocks call), h.condition.trans h'.condition⟩

theorem counted (handle : Handle) (call : EngineCall) (w : World) :
    SameSetting handle w (World.counted handle call w) :=
  ⟨fun call' => (blocks_counted handle call w call').symm, by rw [engines_counted]⟩

theorem applied (handle : Handle) (batch : Batch) (w : World) :
    SameSetting handle w (World.applied handle batch w) := by
  constructor
  · intro call
    unfold World.blocks
    rw [faults?_applied]
  · unfold World.applied
    cases he : w.engines.get? handle.engine with
    | none => simp [he]
    | some e =>
        cases hwrite : e.write batch w.disk with
        | error err => simp [he, hwrite]
        | ok written =>
            obtain ⟨e', disk⟩ := written
            simp [hwrite, SortedMap.get?_insert, Engine.condition_of_write hwrite]

theorem refusal?_eq (h : SameSetting handle w w') (call : EngineCall) (batch : Batch) :
    refusal? handle call batch w = refusal? handle call batch w' := by
  unfold refusal?
  rw [h.blocks call]
  cases World.blocks handle call w' with
  | true => rfl
  | false =>
      have hcondition := h.condition
      cases he : w.engines.get? handle.engine <;> cases he' : w'.engines.get? handle.engine <;>
        simp [he, he'] at hcondition
      · rfl
      · rename_i e e'
        have hwrite := Engine.map_write_congr hcondition batch w.disk w'.disk
        cases hw : e.write batch w.disk <;> cases hw' : e'.write batch w'.disk <;>
          simp [Except.map, hw, hw'] at hwrite ⊢
        exact hwrite

theorem scanRefusal?_eq (h : SameSetting handle w w') :
    scanRefusal? handle w = scanRefusal? handle w' := by
  unfold scanRefusal?
  rw [h.blocks .scan]
  have hcondition := h.condition
  cases he : w.engines.get? handle.engine <;> cases he' : w'.engines.get? handle.engine <;>
    simp [he, he', Engine.condition] at hcondition
  · rfl
  · simp only [hcondition.1]

end SameSetting

/-- Two worlds look alike to a group: they refuse the same calls and agree on the entries of the group. -/
structure Alike (handle : Handle) (g : String) (w w' : World) : Prop where
  setting : SameSetting handle w w'
  under : (content handle w).under g = (content handle w').under g

/-! ## Actions that are confined to a group -/

/-- The answer and the entries of the group that are left depend on what the worlds are to the group, and
all other entries stay. -/
structure Confined {ε α : Type} (handle : Handle) (g : String) (a : Action World ε α) : Prop where
  answer : ∀ {w w'}, Alike handle g w w' → (a.exec w).1 = (a.exec w').1
  under : ∀ {w w'}, Alike handle g w w' →
    (content handle (a.exec w).2).under g = (content handle (a.exec w').2).under g
  setting : ∀ w, SameSetting handle w (a.exec w).2
  without : ∀ w, (content handle (a.exec w).2).without g = (content handle w).without g

namespace Confined

variable {ε ε' α β : Type} {handle : Handle} {g : String}

theorem pure (v : α) : Confined handle g (Pure.pure v : Action World ε α) where
  answer _ := rfl
  under h := h.under
  setting w := .refl handle w
  without _ := rfl

theorem throw (err : ε) : Confined handle g (throwThe ε err : Action World ε α) where
  answer _ := rfl
  under h := h.under
  setting w := .refl handle w
  without _ := rfl

theorem mapError {a : Action World ε α} (h : Confined handle g a) (f : ε → ε') :
    Confined handle g (a.mapError f) where
  answer halike := congrArg (Except.mapError f) (h.answer halike)
  under halike := h.under halike
  setting w := h.setting w
  without w := h.without w

/-- Worlds that look alike look alike afterwards. -/
theorem alike {a : Action World ε α} (h : Confined handle g a) {w w' : World}
    (halike : Alike handle g w w') : Alike handle g (a.exec w).2 (a.exec w').2 where
  setting := (h.setting w).symm.trans (halike.setting.trans (h.setting w'))
  under := h.under halike

/-- One thing after the other: what comes next may count on how the first was answered. -/
theorem bind {a : Action World ε α} {f : α → Action World ε β} (ha : Confined handle g a)
    (hf : ∀ v w, (a.exec w).1 = .ok v → Confined handle g (f v)) : Confined handle g (a >>= f) := by
  constructor
  case answer =>
    intro w w' halike
    have hanswer := ha.answer halike
    have hnext := ha.alike halike
    have hrest := fun v => hf v w
    rw [exec_bind, exec_bind]
    rcases hw : a.exec w with ⟨err | v, s⟩ <;> rcases hw' : a.exec w' with ⟨err' | v', s'⟩ <;>
      simp only [hw, hw', Except.error.injEq, Except.ok.injEq, reduceCtorEq] at hanswer hnext hrest ⊢
    · rw [hanswer]
    · rw [← hanswer]
      exact (hrest v rfl).answer hnext
  case under =>
    intro w w' halike
    have hanswer := ha.answer halike
    have hnext := ha.alike halike
    have hrest := fun v => hf v w
    rw [exec_bind, exec_bind]
    rcases hw : a.exec w with ⟨err | v, s⟩ <;> rcases hw' : a.exec w' with ⟨err' | v', s'⟩ <;>
      simp only [hw, hw', Except.error.injEq, Except.ok.injEq, reduceCtorEq] at hanswer hnext hrest ⊢
    · exact hnext.under
    · rw [← hanswer]
      exact (hrest v rfl).under hnext
  case setting =>
    intro w
    have hsetting := ha.setting w
    have hrest := fun v => hf v w
    rw [exec_bind]
    rcases hw : a.exec w with ⟨err | v, s⟩ <;>
      simp only [hw, Except.ok.injEq] at hsetting hrest ⊢
    · exact hsetting
    · exact hsetting.trans ((hrest v rfl).setting s)
  case without =>
    intro w
    have hwithout := ha.without w
    have hrest := fun v => hf v w
    rw [exec_bind]
    rcases hw : a.exec w with ⟨err | v, s⟩ <;>
      simp only [hw, Except.ok.injEq] at hwithout hrest ⊢
    · exact hwithout
    · exact ((hrest v rfl).without s).trans hwithout

theorem ofAnswer (r : Except ε α) : Confined handle g (Action.answer r : Action World ε α) := by
  cases r with
  | error err => exact throw err
  | ok v => exact pure v

/-! ## What asks the engine -/

/-- A batch of keys that belong to the group. -/
theorem guarded {batch : Batch} (hbatch : ∀ k ∈ batch.keys, Key.belongsTo k g = true)
    (call : EngineCall) :
    Confined handle g (do
      guardCall handle call
      write handle batch) := by
  constructor
  case answer =>
    intro w w' halike
    rw [exec_guarded_eq, exec_guarded_eq, halike.setting.refusal?_eq]
    cases refusal? handle call batch w' <;> rfl
  case under =>
    intro w w' halike
    have hrefusal := halike.setting.refusal?_eq call batch
    rw [exec_guarded_eq, exec_guarded_eq]
    cases hw : refusal? handle call batch w with
    | some err =>
        rw [hw] at hrefusal
        simp only [← hrefusal, content_counted]
        exact halike.under
    | none =>
        rw [hw] at hrefusal
        have happlied := hrefusal.symm
        rw [← refusal?_counted handle call call] at hw happlied
        simp only [← hrefusal, content_applied hw, content_applied happlied, content_counted,
          Table.under_apply hbatch, halike.under]
  case setting =>
    intro w
    rw [exec_guarded_eq]
    cases refusal? handle call batch w with
    | some err => exact .counted handle call w
    | none => exact (SameSetting.counted handle call w).trans (.applied handle batch _)
  case without =>
    intro w
    rw [exec_guarded_eq]
    cases hw : refusal? handle call batch w with
    | some err => simp only [content_counted]
    | none =>
        rw [← refusal?_counted handle call call] at hw
        simp only [content_applied hw, content_counted, Table.without_apply hbatch]

/-- What belongs to a group is read from the entries of the group. -/
theorem exec_belonging (handle : Handle) (g : String) (w : World) :
    (Access.belonging (keyValue handle) g).exec w =
      (match scanRefusal? handle w with
        | some err => .error (.storage err)
        | none => .ok (((content handle w).under g).entries.map Table.entryOf),
        World.counted handle .scan w) := by
  have hscan : ((keyValue handle).scan (Utf8.encode g)).exec w = _ :=
    exec_scan_eq handle (Utf8.encode g) w
  unfold Access.belonging Access.scanText
  rw [exec_bind, exec_mapError, hscan]
  cases scanRefusal? handle w with
  | some err => rfl
  | none =>
      simp only [Answer.mapError_ok, exec_pure, Table.filter_scan_belongsTo]

/-- The scan behind it finds keys that only start alike too, but they are left out. -/
theorem belonging (handle : Handle) (g : String) :
    Confined handle g (Access.belonging (keyValue handle) g) where
  answer halike := by
    rw [exec_belonging, exec_belonging, halike.setting.scanRefusal?_eq, halike.under]
  under halike := by
    rw [exec_belonging, exec_belonging, content_counted, content_counted, halike.under]
  setting w := by
    rw [exec_belonging]
    exact .counted handle .scan w
  without w := by rw [exec_belonging, content_counted]

/-! ## Operations -/

theorem get (codec : DataCodec) : Confined handle g (Access.get (keyValue handle) codec g) := by
  rw [Access.get_eq_belonging]
  apply bind (belonging handle g)
  intro es w _
  cases (Access.gather codec (Utf8.encode g) es).failure with
  | none => exact pure _
  | some err => exact throw err

theorem getSummary (codec : DataCodec) :
    Confined handle g (Access.getSummary (keyValue handle) codec g) :=
  bind ((get codec).mapError _) fun _ _ _ => pure _

theorem delete : Confined handle g (Access.delete (keyValue handle) g) := by
  rw [Access.delete_eq_belonging]
  apply bind (belonging handle g)
  intro es w hes
  split
  · exact pure ()
  · -- The keys that are to go are those that were read, and these belong to the group.
    have hkeys : ∀ k ∈ (Batch.delete (es.map Entry.key)).keys, Key.belongsTo k g = true := by
      rw [exec_belonging] at hes
      cases hrefusal : scanRefusal? handle w with
      | some err => simp [hrefusal] at hes
      | none =>
          simp only [hrefusal, Except.ok.injEq] at hes
          intro k hk
          rw [Batch.keys, ← hes, List.map_map, List.mem_map] at hk
          obtain ⟨e, he, rfl⟩ := hk
          exact (List.mem_filter.mp he).2
    have hdelete : Confined handle g (World.delete handle (es.map Entry.key)) :=
      guarded hkeys (.delete (es.map Entry.key))
    exact hdelete.mapError _

theorem put {o : DataObject} (ho : o.groupKey? = some g) (codec : DataCodec) :
    Confined handle g (Access.put (keyValue handle) codec o) := by
  apply bind (ofAnswer _)
  intro es w hes
  rw [exec_answer] at hes
  obtain ⟨m, hm, hkey⟩ := Option.map_eq_some_iff.mp ho
  have hkeys : ∀ k ∈ (Batch.put es).keys, Key.belongsTo k g = true := by
    intro k hk
    obtain ⟨e, he, rfl⟩ := List.mem_map.mp hk
    rw [← hkey]
    exact Access.belongsTo_of_mem_entriesOf hes hm e he
  exact (guarded hkeys .put).mapError _

theorem update {o : DataObject} (ho : o.groupKey? = some g) (codec : DataCodec) :
    Confined handle g (Access.update (keyValue handle) codec o) := by
  apply bind (ofAnswer _)
  intro m w hm
  obtain ⟨m', hm', hkey⟩ := Option.map_eq_some_iff.mp ho
  rw [exec_answer, Access.requireMetadata, hm'] at hm
  cases hm
  -- The delete and the put are about the same group.
  rw [hkey]
  exact bind (delete.mapError _) fun _ _ _ => (put ho codec).mapError _

/-- A change is confined to the group that it is about. -/
theorem edit {edit : Access.Edit} (hedit : edit.group? = some g) (codec : DataCodec) :
    Confined handle g (edit.act (keyValue handle) codec) := by
  cases edit with
  | put o => exact put hedit codec
  | update o => exact update hedit codec
  | delete key =>
      cases hedit
      exact delete
  | deleteAll keys => cases hedit
  | clear => cases hedit

end Confined

/-! ## Different groups -/

/-- Two actions come to the same in both orders: to the same answers and the same table. -/
structure Commute {ε α β : Type} (handle : Handle) (a : Action World ε α) (b : Action World ε β)
    (w : World) : Prop where
  first : (a.exec (b.exec w).2).1 = (a.exec w).1
  second : (b.exec (a.exec w).2).1 = (b.exec w).1
  content : content handle (b.exec (a.exec w).2).2 = content handle (a.exec (b.exec w).2).2

section Groups

variable {ε α β : Type} {handle : Handle} {g g' : String} {a : Action World ε α}
  {b : Action World ε β} (hg : (ObjectKey.parse? g).isSome) (hg' : (ObjectKey.parse? g').isSome)
  (hne : g ≠ g')

include hg hg' hne

/-- What is confined to one group leaves the world as it was to another. -/
theorem Confined.alike_other (ha : Confined handle g a) (w : World) :
    Alike handle g' (a.exec w).2 w where
  setting := (ha.setting w).symm
  under := Table.under_of_without_eq hg hg' hne (ha.without w)

theorem Confined.commute (ha : Confined handle g a) (hb : Confined handle g' b) (w : World) :
    Commute handle a b w := by
  have hafter := ha.alike_other hg hg' hne
  have hafter' := hb.alike_other hg' hg hne.symm
  refine ⟨ha.answer (hafter' w), hb.answer (hafter w), ?_⟩
  apply SortedMap.ext_get?
  intro k
  -- A key belongs to one of the groups, and then one of the two decides on it, or to none.
  cases hk : Key.belongsTo k g with
  | true =>
      calc (content handle (b.exec (a.exec w).2).2).get? k
          = (content handle (a.exec w).2).get? k := Table.get?_of_under_eq (hafter' _).under hk
        _ = (content handle (a.exec (b.exec w).2).2).get? k :=
          (Table.get?_of_under_eq (ha.under (hafter' w)) hk).symm
  | false =>
      cases hk' : Key.belongsTo k g' with
      | true =>
          calc (content handle (b.exec (a.exec w).2).2).get? k
              = (content handle (b.exec w).2).get? k := Table.get?_of_under_eq (hb.under (hafter w)) hk'
            _ = (content handle (a.exec (b.exec w).2).2).get? k :=
              (Table.get?_of_under_eq (hafter _).under hk').symm
      | false =>
          calc (content handle (b.exec (a.exec w).2).2).get? k
              = (content handle (a.exec w).2).get? k := Table.get?_of_without_eq (hb.without _) hk'
            _ = (content handle w).get? k := Table.get?_of_without_eq (ha.without w) hk
            _ = (content handle (b.exec w).2).get? k :=
              (Table.get?_of_without_eq (hb.without w) hk').symm
            _ = (content handle (a.exec (b.exec w).2).2).get? k :=
              (Table.get?_of_without_eq (ha.without _) hk).symm

end Groups

/-- What a depot reads from a group and what it changes there is confined to the group, whatever the
switches of engine and codec, and changes to different groups commute. -/
theorem confined_to_group {d : Depot} {handle : Handle} (hphase : d.phase = .ready handle)
    {g : String} (hg : (ObjectKey.parse? g).isSome) :
    Confined handle g (withObjects d fun kv codec => Access.get kv codec g) ∧
      Confined handle g (withObjects d fun kv codec => Access.getSummary kv codec g) ∧
      (∀ edit : Access.Edit, edit.group? = some g →
        Confined handle g (withObjects d fun kv codec => edit.act kv codec)) ∧
      ∀ (edit edit' : Access.Edit) (g' : String), edit.group? = some g → edit'.group? = some g' →
        (ObjectKey.parse? g').isSome → g ≠ g' → ∀ w,
          Commute handle (withObjects d fun kv codec => edit.act kv codec)
            (withObjects d fun kv codec => edit'.act kv codec) w := by
  have hedit {edit : Access.Edit} {g : String} (hgroup : edit.group? = some g) :
      Confined handle g (withObjects d fun kv codec => edit.act kv codec) := by
    rw [withObjects_of_phase hphase]
    exact .edit hgroup d.codec
  refine ⟨?_, ?_, fun edit hgroup => hedit hgroup, ?_⟩
  · rw [withObjects_of_phase hphase]
    exact .get d.codec
  · rw [withObjects_of_phase hphase]
    exact .getSummary d.codec
  · intro edit edit' g' hgroup hgroup' hg' hne w
    exact (hedit hgroup).commute hg hg' hne (hedit hgroup') w

/-- A depot on an engine with an object, and beside it a key that starts like that of the object, with any
bytes. -/
def siblings (value : Bytes) : Depot × World :=
  let neighbour : Entry := { key := Utf8.encode "udmf://drag/com.example.test/g1", value }
  ({ id := "drag", manager := 0, managerName := "m", phase := .ready (.direct 0) },
    { next := 1
      engines := SortedMap.ofList
        [(0, { id := "drag"
               table := Table.applyPut ∅
                 (Access.History.stored (DataObject.sample "g" 2) ++ [neighbour]) })] })

/-- A sibling whose key starts alike does not matter to a get, whatever its bytes, and its removal
commutes with an update. -/
theorem confined_to_group_siblings :
    let d := (siblings []).1
    let g := "udmf://drag/com.example.test/g"
    let get := withObjects d fun kv codec => Access.get kv codec g
    let update := withObjects d fun kv codec =>
      Access.Edit.act kv codec (.update (DataObject.sample "g" 1))
    let delete := withObjects d fun kv codec =>
      Access.Edit.act kv codec (.delete "udmf://drag/com.example.test/g1")
    (get.exec (siblings [1, 2]).2).1 = (get.exec (siblings [3]).2).1 ∧
      Commute (.direct 0) update delete (siblings [3]).2 := by
  intro d g get update delete
  have hg : (ObjectKey.parse? g).isSome := by decide +kernel
  have hphase : d.phase = .ready (.direct 0) := rfl
  obtain ⟨hget, -, -, hcommute⟩ := confined_to_group hphase hg
  have halike : Alike (.direct 0) g (siblings [1, 2]).2 (siblings [3]).2 :=
    ⟨⟨fun _ => rfl, by decide +kernel⟩, by decide +kernel⟩
  refine ⟨hget.answer halike, ?_⟩
  exact hcommute (.update (DataObject.sample "g" 1)) (.delete "udmf://drag/com.example.test/g1")
    "udmf://drag/com.example.test/g1" (by decide +kernel) rfl (by decide +kernel) (by decide) _

end World

end ObjectStore
