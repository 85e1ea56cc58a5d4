import ObjectStore.Proofs.Depot.Refinement
import ObjectStore.Proofs.World.Runs

/-!
# What an update leaves alone

An update removes what belongs to its key text before the object, and with it the key text, is checked.
What does not belong to the key text stays as it is, whether the update succeeds or fails at either of
its two steps. Nothing belongs to two group keys, so that an update under a group key leaves every other
group alone. A key text that is none may match other groups: it is refused, and their entries are gone
all the same.

Main statements: `kept_of_update` and `lost_of_update`.
-/

namespace ObjectStore

namespace Table

variable {t : Table} {k : Bytes} {key : String}

/-- To remove one key leaves what does not belong to it. -/
theorem get?_without_of_not_belongsTo (h : Key.belongsTo k key = false) (t : Table) :
    (t.without key).get? k = t.get? k := by
  rw [without, SortedMap.get?_filter]
  cases t.get? k <;> simp [Option.filter, h]

/-- What belongs to one key is put beside what does not. -/
theorem get?_applyPut_of_not_belongsTo (h : Key.belongsTo k key = false) {es : List Entry}
    (hes : ∀ e ∈ es, Key.belongsTo e.key key = true) : (t.applyPut es).get? k = t.get? k := by
  have hnone : es.reverse.find? (fun e => e.key = k) = none := by
    apply List.find?_eq_none.mpr
    intro e he heq
    have hbelongs := hes e (List.mem_reverse.mp he)
    rw [of_decide_eq_true heq, h] at hbelongs
    cases hbelongs
  rw [get?_applyPut, hnone]
  rfl

end Table

namespace Access

/-- An update leaves what does not belong to its key text, also where it fails. -/
theorem get?_of_ensures_update {σ : Type} {kv : KeyValue σ} {codec : DataCodec} {good : σ → Prop}
    {content : σ → Table} (hkv : kv.Lawful good good content fun _ => True) {s : σ} (hs : good s)
    {o : DataObject} {m : Metadata} (hm : o.metadata = some m) {k : Bytes}
    (hk : Key.belongsTo k m.groupKey = false) :
    (update kv codec o).Ensures s (fun _ s' => (content s').get? k = (content s).get? k)
      fun _ s' => (content s').get? k = (content s).get? k := by
  have hwithout := Table.get?_without_of_not_belongsTo hk (content s)
  refine (ensures_update hkv (closedUnderAccess_true codec) (fun _ => trivial) hs o).weaken ?_ ?_
  · intro _ s' h
    obtain ⟨-, m', es, hm', hes, hcontent⟩ := h
    rw [hm] at hm'
    cases hm'
    rw [hcontent, Table.get?_applyPut_of_not_belongsTo hk (belongsTo_of_mem_entriesOf hes hm),
      hwithout]
  · intro _ s' h
    obtain ⟨-, hsame | ⟨m', hm', hgone⟩⟩ := h
    · rw [hsame]
    · rw [hm] at hm'
      cases hm'
      rw [hgone, hwithout]

end Access

namespace World

open ObjectStore.Action

/-! ## Updates of a depot -/

/-- An update leaves every entry of every other group as it is, be it successful or not, with any
switches of the engine and of the codec: if the key text of the object is a group key, and otherwise
as long as the entry does not belong to that text. -/
theorem kept_of_update {w : World} {d : Depot} {handle : Handle} (hphase : d.phase = .ready handle)
    {o : DataObject} {m : Metadata} (hm : o.metadata = some m) {g : String}
    (hg : (ObjectKey.parse? g).isSome) (hne : g ≠ m.groupKey) {k : Bytes}
    (hk : Key.belongsTo k g = true)
    (hkey : (ObjectKey.parse? m.groupKey).isSome ∨ Key.belongsTo k m.groupKey = false) :
    (content handle ((withObjects d fun kv codec => Access.update kv codec o).exec w).2).get? k =
      (content handle w).get? k := by
  have hapart : Key.belongsTo k m.groupKey = false := by
    rcases hkey with hgroup | hapart
    · rw [← Bool.not_eq_true]
      intro hbelongs
      exact hne (Key.eq_of_belongsTo hg hgroup hk hbelongs)
    · exact hapart
  have hupdate : withObjects d (fun kv codec => Access.update kv codec o) =
      Access.update (keyValue handle) d.codec o := by
    unfold withObjects
    rw [hphase]
  rw [hupdate]
  exact Ensures.exec_snd (P := fun w' => (content handle w').get? k = (content handle w).get? k)
    (Access.get?_of_ensures_update (lawful_anywhere handle) trivial hm hapart)

/-- An object is stored. -/
def oneWrite : List Call :=
  [.addManager "m" "app" "user" none false true, .addDepot "s" "m" "drag" { base := "/b" },
    .start "s", .edit "s" (.put (DataObject.sample "g" 2))]

/-- Another object is stored too, and then puts are switched off. -/
def blockedWrites : List Call :=
  oneWrite ++ [.edit "s" (.put (DataObject.sample "g1" 1)), .setFaults "m" { put := true }]

/-- The update of one object fails half-way, and the metadata of the other are there as before. -/
theorem kept_of_update_blocked :
    let w := run {} blockedWrites
    let k := Utf8.encode "udmf://drag/com.example.test/g1"
    ∃ d handle, w.depots.get? "s" = some d ∧ d.phase = .ready handle ∧
      ((content handle w).get? k).isSome ∧
      (content handle ((withObjects d fun kv codec =>
        Access.update kv codec (DataObject.sample "g" 1)).exec w).2).get? k =
          (content handle w).get? k := by
  intro w k
  have hready : ((w.depots.get? "s").any fun d =>
      d.handle?.any fun handle => ((content handle w).get? k).isSome) = true := by
    decide +kernel
  obtain ⟨d, hd, hhandle⟩ := (Option.any_eq_true _ _).mp hready
  obtain ⟨handle, hhandle, hstored⟩ := (Option.any_eq_true _ _).mp hhandle
  have hphase : d.phase = .ready handle := Depot.handle?_eq_some_iff.mp hhandle
  refine ⟨d, handle, hd, hphase, hstored, ?_⟩
  exact kept_of_update (g := "udmf://drag/com.example.test/g1") hphase rfl (by decide +kernel)
    (by decide +kernel) (Key.belongsTo_self _) (.inl (by decide +kernel))

/-- An object without records under a key text that is two segments long. -/
def shortKeyed : DataObject where
  metadata := some { key := { cached := "udmf://drag/com.example.test" } }

/-- Without a condition on the key text an update may harm other objects: it removes all groups of the
bundle before the key text is found to be none. -/
theorem lost_of_update :
    ¬ ∀ (calls : List Call) (d : Depot) (handle : Handle) (o : DataObject) (m : Metadata)
      (g : String) (k : Bytes),
      (run {} calls).depots.get? "s" = some d → d.phase = .ready handle → o.metadata = some m →
      (ObjectKey.parse? g).isSome → g ≠ m.groupKey → Key.belongsTo k g = true →
      (content handle ((withObjects d fun kv codec =>
        Access.update kv codec o).exec (run {} calls)).2).get? k =
          (content handle (run {} calls)).get? k := by
  intro hall
  have hready : (((run {} oneWrite).depots.get? "s").any fun d =>
      d.handle?.any fun handle =>
        decide ((content handle ((withObjects d fun kv codec =>
            Access.update kv codec shortKeyed).exec (run {} oneWrite)).2).get?
              (Utf8.encode "udmf://drag/com.example.test/g") ≠
          (content handle (run {} oneWrite)).get?
            (Utf8.encode "udmf://drag/com.example.test/g"))) = true := by
    decide +kernel
  obtain ⟨d, hd, hhandle⟩ := (Option.any_eq_true _ _).mp hready
  obtain ⟨handle, hhandle, hlost⟩ := (Option.any_eq_true _ _).mp hhandle
  apply of_decide_eq_true hlost
  exact hall _ d handle shortKeyed _ "udmf://drag/com.example.test/g" _ hd
    (Depot.handle?_eq_some_iff.mp hhandle) rfl (by decide +kernel) (by decide +kernel)
    (Key.belongsTo_self _)

end World

end ObjectStore
