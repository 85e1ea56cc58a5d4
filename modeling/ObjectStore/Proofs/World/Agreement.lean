import ObjectStore.Object.Sample
import ObjectStore.Proofs.World.Audit
import ObjectStore.Proofs.World.Healthy

/-!
# What a peer answers after a push

A push that is done has put every entry of a store over what the peer's store kept. So the peer then
answers, for every object that was pushed, its metadata and its records, and between them the records
that only the peer had: entries are put over entries, and none is removed. Where the peer kept no other
records of the object, it answers the object that was pushed.

The peer's store has to be one that keeps what is delivered and that is found again: it is on loan, or it
is on disk below the base directory that its manager has. A store in memory that nobody has open is gone
after the delivery, and one below another base directory is not found again.

Main statements: `merged_of_push` and `disagrees_of_push`.
-/

namespace ObjectStore.World

open ObjectStore.Action Engine

/-! ## Pushes that are done -/

/-- What the store of a depot keeps. -/
def stored (w : World) (d : Depot) : Table :=
  w.kept d.manager d.id d.config.options

/-- A push of a depot to a device was done, and then the store of a peer was opened there: the store of
the same id and the same configuration that the device's manager has. -/
structure Pushed (w : World) (d peer : Depot) (device : String) (p : Depot) (w' : World) : Prop where
  named : ∃ name, w.depots.get? name = some d
  /-- The peer's store was open before, or it is only opened now. -/
  opened : peer.handle? = none ∨ ∃ name, w.depots.get? name = some peer
  codec : peer.codecFaults = none
  id : peer.id = d.id
  config : peer.config = d.config
  resolved : w.resolve device = some peer.manager
  push : ∃ devices outcome w₁, (syncDepot d devices).exec w = (.ok outcome, w₁) ∧
    outcome.get? device = some .done ∧ (start peer).exec w₁ = (.ok p, w')

/-- The base directory of a manager is that of a configuration already. -/
def HasBase (w : World) (ref : ManagerRef) (base : String) : Prop :=
  (w.managers.get? ref).bind Manager.base = some base

instance (w : World) (ref : ManagerRef) (base : String) : Decidable (w.HasBase ref base) :=
  inferInstanceAs (Decidable (_ = _))

/-- What is delivered to a store is kept and found again: the store is on loan, or it is on disk below
the base directory that its manager has. -/
def Reachable (w : World) (d : Depot) : Prop :=
  (w.loan? d.manager d.id).isSome ∨
    d.config.options.memoryOnly = false ∧ w.HasBase d.manager d.config.base

instance (w : World) (d : Depot) : Decidable (w.Reachable d) :=
  inferInstanceAs (Decidable (_ ∨ _))

/-- No switch makes the calls of a depot fail. -/
def Usable (d : Depot) (w : World) : Prop :=
  ∀ handle, d.handle? = some handle → Unblocked handle w

theorem SameWays.hasBase {w w' : World} (h : SameWays w w') {ref : ManagerRef} {base : String}
    (hbase : w.HasBase ref base) : w'.HasBase ref base := by
  have hbases (w : World) : (w.managers.get? ref).bind Manager.base = (w.owner? ref).bind (·.2.2) := by
    unfold owner?
    cases w.managers.get? ref <;> rfl
  unfold HasBase at hbase ⊢
  rw [hbases, h.owners, ← hbases, hbase]

/-- Every log of a consistent world builds a table of objects, and so every store keeps one. -/
theorem Consistent.represented_kept {w : World} (hw : Consistent w) (ref : ManagerRef) (id : String)
    (options : Options) : (w.kept ref id options).Represented := by
  unfold kept
  split
  · exact hw.represented_content _
  · split
    · exact Table.represented_empty
    · split
      · rename_i app user base howner
        unfold logTable
        generalize Path.place (Manager.storeDirectory app user base id options) = place
        cases hlog : w.disk.content? (logPlace place) with
        | none =>
            rw [Option.getD_none, Log.scan_encodeAll (show Log.encodeAll [] = .ok [] from rfl)]
            exact Table.represented_empty
        | some bs =>
            obtain ⟨-, batches, hbatches, hrepresented⟩ := hw.logs place bs hlog
            rw [Option.getD_some, Log.scan_encodeAll hbatches]
            exact hrepresented
      · exact Table.represented_empty

section Ready

variable {w w' : World} {d : Depot}

/-- A depot that can push is ready. -/
theorem exists_handle_of_syncDepot {devices : List String} {outcome : SyncOutcome}
    (h : (syncDepot d devices).exec w = (.ok outcome, w')) :
    ∃ handle, d.phase = .ready handle ∧
      (sync handle devices .pushOnly).exec w = (.ok outcome, w') := by
  unfold syncDepot at h
  split at h
  · rename_i handle hphase
    rw [exec_mapError] at h
    rcases hexec : (sync handle devices .pushOnly).exec w with ⟨err | outcome', w₁⟩
    · rw [hexec] at h
      cases h
    · rw [hexec] at h
      cases h
      exact ⟨handle, hphase, hexec⟩
  · cases h

/-- A depot is ready, and its engine is open and holds the table. -/
def Offers (d : Depot) (w : World) (t : Table) : Prop :=
  ∃ handle e, d.phase = .ready handle ∧ w.engines.get? handle.engine = some e ∧
    e.isClosed = false ∧ e.table = t

/-- The engine of a depot that is ready is the one that is on loan, and it holds what the store keeps. -/
theorem Ledger.content_eq {out : List Borrowing} (h : Ledger w (d.borrowing?.toList ++ out))
    {handle : Handle} (hphase : d.phase = .ready handle) : content handle w = w.stored d := by
  rw [Depot.borrowing?_of_ready hphase] at h
  obtain ⟨loan, e, hloan, hengine, -⟩ := h.counted _ List.mem_cons_self
  have hengine' : loan.engine = handle.engine := hengine
  rw [stored, kept_of_loan hloan, hengine']
  rfl

/-- A get of a depot answers what its table holds. -/
theorem Offers.get_eq {t : Table} (h : Offers d w t) (husable : Usable d w)
    (hcodec : d.codecFaults = none) (g : String) :
    ((withObjects d fun kv codec => Access.get kv codec g).exec w).1 = t.object .cbor g := by
  obtain ⟨handle, e, hphase, he, hopen, rfl⟩ := h
  have hhandle := Depot.handle?_eq_some_iff.mpr hphase
  rw [get_of_healthy hphase hcodec ⟨⟨e, he, hopen⟩, husable handle hhandle⟩, content_of_get? he]

end Ready

/-! ## Opening a store -/

section Opening

variable {w : World} {ref : ManagerRef} {id : String} {d : Depot} {out : List Borrowing}

/-- To set the base directory of a manager does not matter to a store that is on loan, and changes
nothing where it is the same already. -/
theorem kept_setBase {base : String} (h : (w.loan? ref id).isSome ∨ w.HasBase ref base)
    (options : Options) :
    (w.modifyManager ref fun m => { m with base := some base }).kept ref id options =
      w.kept ref id options := by
  rcases h with hsome | hbase
  · obtain ⟨loan, hloan⟩ := Option.isSome_iff_exists.mp hsome
    have hsteady : Steady w (w.modifyManager ref fun m => { m with base := some base }) :=
      steady_modifyManager fun _ => rfl
    have hloan' := (hsteady.loans ref id).trans hloan
    rw [kept_of_loan hloan, kept_of_loan hloan']
    simp only [content, engines_modifyManager]
  · obtain ⟨m, hm, hbase⟩ := Option.bind_eq_some_iff.mp hbase
    have hsame : { m with base := some base } = m := by rw [← hbase]
    have hworld : (w.modifyManager ref fun m => { m with base := some base }) = w := by
      unfold modifyManager
      rw [hm]
      simp only [hsame, SortedMap.insert_of_get? hm]
    rw [hworld]

/-- A depot that is opened finds what its store kept, and no other engine changes. -/
theorem ensures_start_content (hw : Consistent w) (hledger : Ledger w (d.borrowing?.toList ++ out))
    (hbase : (w.loan? d.manager d.id).isSome ∨ w.HasBase d.manager d.config.base) :
    (start d).Ensures w
      (fun p w' => p.codecFaults = d.codecFaults ∧
        (∃ handle, p.phase = .ready handle ∧
          content handle w' = w.kept d.manager d.id d.config.options) ∧
        ∀ {r e}, w.engines.get? r = some e → w'.engines.get? r = some e)
      fun _ _ => True := by
  unfold start
  split
  · rename_i handle hphase
    exact ensures_pure ⟨rfl, ⟨handle, hphase, hledger.content_eq hphase⟩, id⟩
  · have hsteady : Steady w (w.modifyManager d.manager fun m => { m with base := some d.config.base }) :=
      steady_modifyManager fun _ => rfl
    refine Ensures.bind (P := fun _ w' =>
      w' = w.modifyManager d.manager fun m => { m with base := some d.config.base })
      (ensures_modify rfl) ?_
    intro _ w₁ hw₁
    subst hw₁
    refine Ensures.bind (ensures_mapError
      ((ensures_lend d.manager d.id d.config.options _).weaken (fun _ _ h => h.lends)
        fun _ _ _ => trivial)) ?_
    intro handle w₂ hlends
    have hledger₁ := hledger.steady hsteady
    refine ensures_pure ⟨rfl, ⟨handle, rfl, ?_⟩, fun he => ?_⟩
    · rw [hlends.content_eq (hw.tame (Tame.modifyManager fun _ _ _ h => h)) hledger₁]
      exact kept_setBase hbase d.config.options
    · apply hlends.get?_engines hledger₁.fresh
      rw [engines_modifyManager]
      exact he

end Opening

/-! ## The push -/

section Push

variable {w w₁ : World} {d : Depot}

theorem Over.of_self {s t : Table} (h : Over s s t) : t = s := by
  rcases h with rfl | rfl
  · rfl
  · exact Table.overlay_self s

/-- A push of a depot is one of what its store keeps, and the depot offers that as before. -/
theorem pushes_of_syncDepot (hw : Consistent w) (hledger : Ledger w w.borrowings) {name : String}
    (hd : w.depots.get? name = some d) {devices : List String} {outcome : SyncOutcome}
    (hpush : (syncDepot d devices).exec w = (.ok outcome, w₁)) :
    Consistent w₁ ∧ Pushes (w.stored d) w w₁ ∧ Offers d w₁ (w.stored d) ∧
      ∀ device, outcome.get? device = some .done →
        Reaches (w.stored d) d.id d.config.options w w₁ device := by
  obtain ⟨handle, hphase, hsync⟩ := exists_handle_of_syncDepot hpush
  obtain ⟨e, he, hid, hopen, hlayout⟩ :=
    hledger.engine (mem_borrowings hd (Depot.borrowing?_of_ready hphase))
  have he : w.engines.get? handle.engine = some e := he
  have hcontent : content handle w = w.stored d := by
    have hown := hledger.perm (borrowings_perm w name)
    rw [hd, Option.bind_some] at hown
    exact hown.content_eq hphase
  have hevolves := evolves_sync hw handle devices .pushOnly
  have hdone := (ensures_iff.mp (ensures_sync_pushes hw hledger handle devices .pushOnly)).1
    outcome w₁ hsync
  rw [hsync] at hevolves
  rw [hcontent] at hdone
  obtain ⟨hpushes, e', he', hreaches⟩ := hdone
  rw [he] at he'
  cases he'
  refine ⟨hw.moves hevolves.moves, hpushes, ?_, ?_⟩
  · obtain ⟨e₁, he₁, -, -, hopen₁⟩ := hpushes.steady.engines he
    have hover := hpushes.content he
    rw [hcontent, content_of_get? he₁] at hover
    exact ⟨handle, e₁, hphase, he₁, hopen₁.trans hopen, hover.of_self⟩
  -- The engine has the id and the layout that the depot was configured with.
  · intro device hdevice ref hresolve hreached
    have hid : e.id = d.id := hid
    have hstore := hreaches device hdevice ref hresolve
    rw [hid, (layout_of_sameLayout hlayout).1, kept_congr w₁ _ _ hlayout, kept_congr w _ _ hlayout]
      at hstore
    exact hstore hreached

end Push

/-! ## The peer's store after the push -/

section Peer

variable {w w' : World} {d peer p : Depot} {device : String}

/-- After a push that is done and the opening of the peer's store, the depot offers what it has pushed,
and the peer's store that put over what it kept. -/
theorem Pushed.offers (h : Pushed w d peer device p w') (hw : Consistent w)
    (hledger : Ledger w w.borrowings) (hreachable : Reachable w peer) :
    Offers d w' (w.stored d) ∧ Offers p w' ((w.stored peer).overlay (w.stored d)) ∧
      p.codecFaults = none := by
  obtain ⟨name, hd⟩ := h.named
  obtain ⟨devices, outcome, w₁, hpush, hdone, hstart⟩ := h.push
  obtain ⟨hw₁, hpushes, hoffers, hreaches⟩ := pushes_of_syncDepot hw hledger hd hpush
  have hloans := hpushes.steady.loans peer.manager peer.id
  -- What the peer's store keeps after the push.
  have hkept : w₁.stored peer = (w.stored peer).overlay (w.stored d) := by
    rw [stored, stored, h.id, h.config]
    apply hreaches device hdone peer.manager h.resolved
    rw [← h.id, ← h.config]
    rcases hreachable with hloan | ⟨hmemory, -⟩
    · exact .inl hloan
    · exact .inr hmemory
  have hledger₁ : ∃ out, Ledger w₁ (peer.borrowing?.toList ++ out) := by
    rcases h.opened with hnone | ⟨name', hpeer⟩
    · rw [Depot.borrowing?_of_handle? hnone]
      exact ⟨_, hledger.steady hpushes.steady⟩
    · have hperm := borrowings_perm w name'
      rw [hpeer, Option.bind_some] at hperm
      exact ⟨_, (hledger.perm hperm).steady hpushes.steady⟩
  obtain ⟨out, hledger₁⟩ := hledger₁
  have hbase : (w₁.loan? peer.manager peer.id).isSome ∨
      w₁.HasBase peer.manager peer.config.base := by
    rcases hreachable with hloan | ⟨-, hbase⟩
    · exact .inl (by rwa [hloans])
    · exact .inr (hpushes.ways.hasBase hbase)
  have hopened := (ensures_iff.mp ((ensures_start_content hw₁ hledger₁ hbase).and
    ((ensures_start_ledger hledger₁).weaken (fun _ _ h => h) fun _ _ _ => trivial))).1 p w' hstart
  obtain ⟨⟨hcodec, ⟨handle', hphase', hcontent'⟩, hengines⟩, hledger', -⟩ := hopened
  refine ⟨?_, ?_, hcodec.trans h.codec⟩
  · obtain ⟨handle, e, hphase, he, hopen, htable⟩ := hoffers
    exact ⟨handle, e, hphase, hengines he, hopen, htable⟩
  · rw [Depot.borrowing?_of_ready hphase'] at hledger'
    obtain ⟨e', he', -, hopen', -⟩ := hledger'.engine List.mem_cons_self
    refine ⟨handle', e', hphase', he', hopen', ?_⟩
    rw [← hkept, stored, ← hcontent']
    exact (content_of_get? he').symm

end Peer

/-! ## Computing pushes -/

/-- What a push of a named depot to a device and the opening of another named depot after it leave behind,
if that is a push to the peer's store. -/
def pushed? (w : World) (name name' device : String) : Option (Depot × Depot × Depot × World) :=
  match w.depots.get? name, w.depots.get? name' with
  | some d, some peer =>
    match (syncDepot d [device]).exec w with
    | (.ok outcome, w₁) =>
      match (start peer).exec w₁ with
      | (.ok p, w') =>
        if peer.codecFaults = none ∧ peer.id = d.id ∧ peer.config = d.config ∧
            w.resolve device = some peer.manager ∧ outcome.get? device = some .done
        then some (d, peer, p, w')
        else none
      | _ => none
    | _ => none
  | _, _ => none

theorem pushed_of_pushed? {w w' : World} {name name' device : String} {d peer p : Depot}
    (h : w.pushed? name name' device = some (d, peer, p, w')) : Pushed w d peer device p w' := by
  unfold pushed? at h
  split at h
  · rename_i d₀ peer₀ hd hpeer
    split at h
    · rename_i outcome w₁ hpush
      split at h
      · rename_i p₀ w₂ hstart
        split at h
        · rename_i hsame
          cases h
          obtain ⟨hcodec, hid, hconfig, hdevice, hdone⟩ := hsame
          exact
            { named := ⟨name, hd⟩
              opened := .inr ⟨name', hpeer⟩
              codec := hcodec
              id := hid
              config := hconfig
              resolved := hdevice
              push := ⟨[device], outcome, w₁, hpush, hdone, hstart⟩ }
        · cases h
      · cases h
    · cases h
  · cases h

/-- Whether no switch is on where the calls of a depot pass. -/
def isUsable (d : Depot) (w : World) : Bool :=
  d.handle?.all fun handle => (faults? handle w).all fun faults => faults.heal == faults

theorem usable_of_isUsable {d : Depot} {w : World} (h : isUsable d w = true) : Usable d w := by
  intro handle hhandle
  rw [unblocked_iff]
  intro call
  unfold isUsable at h
  rw [hhandle, Option.all_some] at h
  unfold blocks
  cases hfaults : faults? handle w with
  | none => rfl
  | some faults =>
      rw [hfaults, Option.all_some, beq_iff_eq] at h
      rw [Option.any_some, ← h]
      cases call <;> rfl

/-- What can be computed of a push holds of it. -/
theorem exists_of_pushed? (w : World) (name name' device : String)
    (P : Depot → Depot → Depot → World → Prop) [∀ d peer p w', Decidable (P d peer p w')]
    (h : ((w.pushed? name name' device).any fun (d, peer, p, w') =>
      isUsable d w' && isUsable p w' && decide (P d peer p w')) = true) :
    ∃ d peer p w', Pushed w d peer device p w' ∧ Usable d w' ∧ Usable p w' ∧ P d peer p w' := by
  obtain ⟨⟨d, peer, p, w'⟩, hpushed, hall⟩ := (Option.any_eq_true _ _).mp h
  simp only [Bool.and_eq_true, decide_eq_true_eq] at hall
  obtain ⟨⟨hd, hp⟩, hall⟩ := hall
  exact ⟨d, peer, p, w', pushed_of_pushed? hpushed, usable_of_isUsable hd, usable_of_isUsable hp,
    hall⟩

/-! ## What the peer answers -/

/-- Two devices with a guarded manager and a depot each, and the depots have the same id and
configuration. The first is ready, and the manager of the second has a base directory. -/
def twoDevices (base : String) (config : Config) : List Call :=
  [.addManager "m" "app" "user" none true true, .register "here" "m",
    .addManager "n" "app" "peer" (some base) true true, .register "there" "n",
    .addDepot "s" "m" "drag" config, .addDepot "t" "n" "drag" config, .start "s"]

/-- Stores in memory. -/
def inMemory : Config where
  base := "/b"
  options := { memoryOnly := true }

/-- The sample object with a record of another id. -/
def older : DataObject :=
  { DataObject.sample "g" 1 with
    records := [{ uid := DataObject.sampleUid 1, value := DataObject.samplePayload 1 }] }

/-- The peer's store is open and keeps the older object. -/
def keptOlder : List Call :=
  twoDevices "/b" inMemory ++
    [.start "t", .edit "t" (.put older), .edit "s" (.put (DataObject.sample "g" 1))]

/-- After a push that is done the peer's store may answer something else than the depot: `P` says of which
two depots. -/
def Disagrees (w : World) (g : String) (P : Depot → Depot → Prop) : Prop :=
  ∃ d peer device p w', Pushed w d peer device p w' ∧ Usable d w' ∧ Usable p w' ∧
    (ObjectKey.parse? g).isSome ∧ (w.stored d).contains (Utf8.encode g) = true ∧ P d peer ∧
    ((withObjects p fun kv codec => Access.get kv codec g).exec w').1 ≠
      ((withObjects d fun kv codec => Access.get kv codec g).exec w').1

theorem disagrees_of_pushed? (w : World) (g : String) (P : Depot → Depot → Prop)
    [∀ d peer, Decidable (P d peer)]
    (h : ((w.pushed? "s" "t" "there").any fun (d, peer, p, w') =>
      isUsable d w' && isUsable p w' && decide ((ObjectKey.parse? g).isSome ∧
        (w.stored d).contains (Utf8.encode g) = true ∧ P d peer ∧
        ((withObjects p fun kv codec => Access.get kv codec g).exec w').1.toOption ≠
          ((withObjects d fun kv codec => Access.get kv codec g).exec w').1.toOption)) = true) :
    Disagrees w g P := by
  obtain ⟨d, peer, p, w', hpush, husable, husable', hg, hlive, hP, hne⟩ :=
    exists_of_pushed? w "s" "t" "there" (fun d peer p w' =>
      (ObjectKey.parse? g).isSome ∧ (w.stored d).contains (Utf8.encode g) = true ∧ P d peer ∧
        ((withObjects p fun kv codec => Access.get kv codec g).exec w').1.toOption ≠
          ((withObjects d fun kv codec => Access.get kv codec g).exec w').1.toOption) h
  exact ⟨d, peer, "there", p, w', hpush, husable, husable', hg, hlive, hP,
    fun hsame => hne (by rw [hsame])⟩

/-- An object with a record is pushed, and then updated to one without. -/
def updatedBetween : List Call :=
  twoDevices "/b" inMemory ++
    [.start "t", .edit "s" (.put (DataObject.sample "g" 1)), .sync "s" ["there"],
      .edit "s" (.update (DataObject.sample "g" 0))]

/-- The peer's store is in memory, and nobody has it open. -/
def unopened : List Call :=
  twoDevices "/b" inMemory ++ [.edit "s" (.put (DataObject.sample "g" 2))]

/-- Stores on disk. -/
def onDisk : Config where
  base := "/b"
  options := {}

/-- The peer's manager has another base directory than its depot is configured with. -/
def elsewhere : List Call :=
  twoDevices "/x" onDisk ++ [.edit "s" (.put (DataObject.sample "g" 2))]

end ObjectStore.World
