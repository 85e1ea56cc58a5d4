import ObjectStore.Proofs.Engine.Locking
import ObjectStore.Proofs.Engine.Salvage
import ObjectStore.Proofs.World.Answers
import ObjectStore.Proofs.World.Writers

/-!
# Stores on damaged logs

A directory that nobody has open may hold a log of any bytes. An opening that may drop damage makes a store
of the whole records at the front of the log and keeps these and nothing else there, and an opening that may
not is granted only where that changes nothing. Otherwise it leaves the directory as it was, for others to
open. What is accepted after a recovery comes behind the records that were kept, so that the next opening
finds what the store held in the end.

Main statement: `salvaged_of_openable`.
-/

namespace ObjectStore.World

open ObjectStore.Action
open Engine (logPlace lockPlace)

/-! ## Openings and what follows them -/

/-- The directory of a path is there and nobody has it open; its log may hold any bytes. -/
structure Openable (w : World) (path : String) (place : List String) (content : Bytes) : Prop where
  found : w.disk.find path = .ok (place, .directory)
  /-- The file of the lock is there or can be made. -/
  lock : w.disk.node? (lockPlace place) ≠ some .directory
  log : w.disk.content? (logPlace place) = some content
  free : w.isDirectoryHeld place = false

/-- A name stands for an open engine of a directory, with what it holds and what is in its log. -/
structure Serving (w : World) (name : String) (r : EngineRef) (place : List String) (table : Table)
    (log : Bytes) : Prop where
  named : w.handleNames.get? name = some (.direct r)
  engine : ∃ e, w.engines.get? r = some e ∧ e.isClosed = false ∧ e.directory? = some place ∧
    e.table = table
  log : w.disk.content? (logPlace place) = some log

/-- Batches are accepted through a handle, one after the other. -/
inductive Accepting (handle : Handle) : World → List Batch → World → Prop where
  | nil (w : World) : Accepting handle w [] w
  | put {w w' w'' : World} {entries : List Entry} {batches : List Batch}
      (h : (put handle entries).exec w = (.ok (), w')) (rest : Accepting handle w' batches w'') :
      Accepting handle w (.put entries :: batches) w''
  | delete {w w' w'' : World} {keys : List Bytes} {batches : List Batch}
      (h : (delete handle keys).exec w = (.ok (), w')) (rest : Accepting handle w' batches w'') :
      Accepting handle w (.delete keys :: batches) w''

/-- An opening under a name makes a store of the batches and leaves the log. When more batches have been
accepted and the name has gone, every other opening gives what the store held in the end. -/
def Restores (w : World) (name path id : String) (options : Options) (networked : Bool)
    (place : List String) (batches : List Batch) (log : Bytes) : Prop :=
  ∃ w₁, (openNamed name path id options networked).exec w = (.ok (), w₁) ∧
    Serving w₁ name w.next place (Log.replay batches) log ∧
    ∀ {edits w₂}, Accepting (.direct w.next) w₁ edits w₂ →
      ∃ log₂, Serving w₂ name w.next place (Log.replay (batches ++ edits)) log₂ ∧
        ∀ name' id' options' networked', ∃ w₃,
          (openNamed name' path id' options' networked').exec (w₂.dropHandle name) = (.ok (), w₃) ∧
            Serving w₃ name' w₂.next place (Log.replay (batches ++ edits)) log₂

/-! ## The engine behind a name -/

/-- A name stands for an engine that persists its batches in the directory of a path, and without the name
nobody has the directory open. -/
structure Owning (w : World) (name : String) (r : EngineRef) (path : String) (place : List String)
    (e : Engine) (batches : List Batch) (bs : Bytes) : Prop where
  named : w.handleNames.get? name = some (.direct r)
  engine : w.engines.get? r = some e
  isOpen : e.isClosed = false
  persists : e.Persists w.disk place batches bs
  found : w.disk.find path = .ok (place, .directory)
  locked : (w.disk.content? (lockPlace place)).isSome
  free : (w.dropHandle name).isDirectoryHeld place = false

section Owning

variable {w w' : World} {name path : String} {r : EngineRef} {place : List String} {e : Engine}
  {batches : List Batch} {bs content : Bytes}

theorem Owning.serving (h : Owning w name r path place e batches bs) :
    Serving w name r place (Log.replay batches) bs where
  named := h.named
  engine := ⟨e, h.engine, h.isOpen, h.persists.directory?, h.persists.table⟩
  log := h.persists.log

/-- An engine that has just been opened is held by its name alone. -/
theorem isDirectoryHeld_of_opened (h : Accounted w) (disk : Disk) (e : Engine) (name : String)
    (hfree : w.isDirectoryHeld place = false) :
    ((({ w with disk }.addEngine e).2.nameHandle name (.direct w.next)).dropHandle name).isDirectoryHeld
      place = false := by
  refine Bool.eq_false_iff.mpr fun hheld => ?_
  obtain ⟨r, e', he', hr, hplace⟩ := isDirectoryHeld_iff.mp hheld
  have hbefore : w.isEngineHeld r = true := by
    rcases isEngineHeld_iff.mp hr with ⟨name', handle, hname, rfl⟩ | hmanager | hdepot
    · -- The only name that is new is the one that has gone.
      change ((w.handleNames.insert name (.direct w.next)).erase name).get? name' = some handle at hname
      rw [SortedMap.get?_erase, SortedMap.get?_insert] at hname
      split at hname
      · cases hname
      · exact isEngineHeld_of_name hname
    · exact isEngineHeld_iff.mpr (.inr (.inl hmanager))
    · exact isEngineHeld_iff.mpr (.inr (.inr hdepot))
  obtain ⟨e₀, he₀⟩ := h.has_of_held hbefore
  have hne : r ≠ w.next := by
    rintro rfl
    rw [(h.booked.fresh w.next (Nat.le_refl _)).1] at he₀
    cases he₀
  change (w.engines.insert w.next e).get? r = some e' at he'
  rw [SortedMap.get?_insert, if_neg hne] at he'
  exact Bool.false_ne_true (hfree.symm.trans (isDirectoryHeld_iff.mpr ⟨r, e', he', hbefore, hplace⟩))

/-- A directory is opened for its whole records. -/
theorem Openable.owning (ho : Openable w path place content) (h : Accounted w) (name id : String)
    {options : Options} (networked : Bool)
    (hallowed : options.removeCorrupted = true ∨ content = Log.accepted content) :
    ∃ w₁ e, (openNamed name path id options networked).exec w = (.ok (), w₁) ∧
      Owning w₁ name w.next path place e (Log.scan content).batches (Log.accepted content) := by
  obtain ⟨e, disk, hopen, hisOpen, hpersists, hfound, hlocked⟩ :=
    Engine.opened_of_content ho.found ho.lock ho.log ho.free id networked hallowed
  refine ⟨_, e, by rw [exec_openNamed, hopen], ?_⟩
  exact
    { named := (SortedMap.get?_insert _ _ _ _).trans (if_pos rfl)
      engine := (SortedMap.get?_insert _ _ _ _).trans (if_pos rfl)
      isOpen := hisOpen
      persists := hpersists
      found := hfound
      locked := hlocked
      free := isDirectoryHeld_of_opened h disk e name ho.free }

/-- A batch that is accepted comes to the table and behind the other records. -/
theorem Owning.write (h : Owning w name r path place e batches bs) {b : Batch} {e' : Engine} {disk : Disk}
    (hwrite : e.write b w.disk = .ok (e', disk)) :
    ∃ batches' bs', Log.replay batches' = (Log.replay batches).apply b ∧
      Owning { w with engines := w.engines.insert r e', disk } name r path place e' batches' bs' := by
  obtain ⟨-, hisOpen, hdirectory, htable⟩ := Engine.table_of_write hwrite
  have hfree : (World.dropHandle { w with engines := w.engines.insert r e', disk } name).isDirectoryHeld
      place = false := by
    refine Bool.eq_false_iff.mpr fun hheld => ?_
    obtain ⟨r', e'', he'', hr, hplace⟩ := isDirectoryHeld_iff.mp hheld
    -- The engine has the directory that it had, and the others are the same.
    change (w.engines.insert r e').get? r' = some e'' at he''
    rw [SortedMap.get?_insert] at he''
    apply Bool.false_ne_true
    rw [← h.free]
    split at he''
    · rename_i heq
      cases he''
      subst heq
      exact isDirectoryHeld_iff.mpr ⟨r', e, h.engine, hr, hdirectory.symm.trans hplace⟩
    · exact isDirectoryHeld_iff.mpr ⟨r', e'', he'', hr, hplace⟩
  have hlogged : ∀ place', e.directory? = some place' → w.disk.content? (logPlace place') ≠ none := by
    intro place' hplace'
    rw [h.persists.directory?] at hplace'
    cases hplace'
    rw [h.persists.log]
    simp
  have hgrows : Disk.Grows true w.disk disk := Engine.grows_of_write hlogged hwrite
  have hpersists : ∃ batches' bs', e'.Persists disk place batches' bs' := by
    rcases h.persists.write hwrite with ⟨-, rfl, rfl⟩ | ⟨record, -, -, hpersists⟩
    · exact ⟨batches, bs, h.persists⟩
    · exact ⟨_, _, hpersists⟩
  obtain ⟨batches', bs', hpersists⟩ := hpersists
  refine ⟨batches', bs', by rw [← hpersists.table, htable, h.persists.table], ?_⟩
  exact
    { named := h.named
      engine := (SortedMap.get?_insert _ _ _ _).trans (if_pos rfl)
      isOpen := hisOpen
      persists := hpersists
      found := hgrows.directories.find h.found
      locked := by
        rw [Engine.content?_of_write hwrite fun _ _ => (Engine.logPlace_ne_lockPlace _ _).symm]
        exact h.locked
      free := hfree }

/-- A call that is accepted through the handle of an engine is a batch that the engine writes. -/
theorem write_of_guarded {call : EngineCall} {b : Batch} (he : w.engines.get? r = some e)
    (h : Action.exec (do
      guardCall (.direct r) call
      write (.direct r) b) w = (.ok (), w')) :
    ∃ e' disk, e.write b w.disk = .ok (e', disk) ∧
      w' = { w with engines := w.engines.insert r e', disk } := by
  rw [exec_guarded_eq] at h
  split at h
  · cases h
  · rename_i haccepted
    obtain rfl : applied (.direct r) b w = w' := congrArg Prod.snd h
    have hget : w.engines.get? (Handle.direct r).engine = some e := he
    cases hwrite : e.write b w.disk with
    | error err =>
        simp [refusal?, blocks, faults?, hget, hwrite] at haccepted
    | ok written =>
        obtain ⟨e', disk⟩ := written
        refine ⟨e', disk, rfl, ?_⟩
        simp only [applied, hget, hwrite]
        rfl

/-- Whatever batches are accepted, they come to the table, and the name goes on standing for an engine
that persists what it holds. -/
theorem Owning.accepting {edits : List Batch} (h : Owning w name r path place e batches bs)
    (haccepting : Accepting (.direct r) w edits w') :
    ∃ e' batches' bs', Log.replay batches' = Log.replay (batches ++ edits) ∧
      Owning w' name r path place e' batches' bs' := by
  induction edits generalizing w e batches bs with
  | nil =>
      cases haccepting
      exact ⟨e, batches, bs, by rw [List.append_nil], h⟩
  | cons b edits ih =>
      obtain ⟨w₁, e₁, batches₁, bs₁, hreplay, h₁, hrest⟩ : ∃ w₁ e₁ batches₁ bs₁,
          Log.replay batches₁ = (Log.replay batches).apply b ∧
            Owning w₁ name r path place e₁ batches₁ bs₁ ∧ Accepting (.direct r) w₁ edits w' := by
        cases haccepting with
        | put hput hrest =>
            obtain ⟨e₁, disk, hwrite, rfl⟩ := write_of_guarded h.engine hput
            obtain ⟨batches₁, bs₁, hreplay, h₁⟩ := h.write hwrite
            exact ⟨_, e₁, batches₁, bs₁, hreplay, h₁, hrest⟩
        | delete hdelete hrest =>
            obtain ⟨e₁, disk, hwrite, rfl⟩ := write_of_guarded h.engine hdelete
            obtain ⟨batches₁, bs₁, hreplay, h₁⟩ := h.write hwrite
            exact ⟨_, e₁, batches₁, bs₁, hreplay, h₁, hrest⟩
      obtain ⟨e', batches', bs', hreplay', h'⟩ := ih h₁ hrest
      refine ⟨e', batches', bs', ?_, h'⟩
      rw [hreplay', Log.replay, Log.replay, List.foldl_append, List.foldl_append, List.foldl_cons]
      exact congrArg (edits.foldl Table.apply) hreplay

/-- When the name has gone, the directory is opened again as the engine has left it. -/
theorem Owning.reopen (h : Owning w name r path place e batches bs) (name' id : String)
    (options : Options) (networked : Bool) :
    ∃ w', (openNamed name' path id options networked).exec (w.dropHandle name) = (.ok (), w') ∧
      Serving w' name' w.next place (Log.replay batches) bs := by
  have hprepared : Engine.prepareDirectory path id options w.disk = (.ok place, w.disk) := by
    rw [Engine.prepareDirectory, h.found]
  have hopen : Engine.openDirectory path id options networked (w.dropHandle name).isDirectoryHeld
      (w.dropHandle name).disk =
        (.ok { id, options, table := e.table, backing := e.backing, networked }, w.disk) := by
    have hopened := @Engine.openDirectory_of_persists path id options networked
      (w.dropHandle name).isDirectoryHeld w.disk place e batches bs (congrArg Prod.fst hprepared)
      h.locked h.free h.persists
    rwa [hprepared] at hopened
  refine ⟨_, by rw [exec_openNamed, hopen], ?_⟩
  exact
    { named := (SortedMap.get?_insert _ _ _ _).trans (if_pos rfl)
      engine := ⟨_, (SortedMap.get?_insert _ _ _ _).trans (if_pos rfl), rfl, h.persists.directory?,
        h.persists.table⟩
      log := h.persists.log }

/-- An opening that is allowed restores the whole records. -/
theorem Openable.restores (ho : Openable w path place content) (h : Accounted w) (name id : String)
    {options : Options} (networked : Bool)
    (hallowed : options.removeCorrupted = true ∨ content = Log.accepted content) :
    Restores w name path id options networked place (Log.scan content).batches
      (Log.accepted content) := by
  obtain ⟨w₁, e, hexec, howning⟩ := ho.owning h name id networked hallowed
  refine ⟨w₁, hexec, howning.serving, fun {edits w₂} haccepting => ?_⟩
  obtain ⟨e₂, batches₂, log₂, hreplay, howning₂⟩ := howning.accepting haccepting
  rw [← hreplay]
  exact ⟨log₂, howning₂.serving, howning₂.reopen⟩

/-- An opening that is not allowed is refused, and the directory can be opened as before. -/
theorem Openable.refused (ho : Openable w path place content) (name id : String) {options : Options}
    (networked : Bool) (hoptions : options.removeCorrupted = false)
    (hdamaged : content ≠ Log.accepted content) :
    ∃ text w', (openNamed name path id options networked).exec w = (.error (.corrupted text), w') ∧
      Openable w' path place content := by
  obtain ⟨text, disk, hopen, hext, hlocked⟩ :=
    Engine.refused_of_content ho.found ho.lock ho.log ho.free id networked hoptions hdamaged
  refine ⟨text, { w with disk }, by rw [exec_openNamed, hopen], ?_⟩
  exact
    { found := hext.keepsDirectories.find ho.found
      lock := by
        obtain ⟨lock, hlock⟩ := Option.isSome_iff_exists.mp hlocked
        rw [Disk.content?_eq_some_iff.mp hlock]
        simp
      log := hext.content?_of_some ho.log
      free := ho.free }

end Owning

/-! ## Every log -/

/-- Whatever bytes are in the log of a directory that nobody has open: an opening that may drop damage
restores the longest front part of the log that consists of whole records. One that may not does the same
if this is all of the log, and otherwise is refused and leaves the directory to the next opening. -/
theorem salvaged_of_openable (disk : Disk) (events : List Event) {path : String} {place : List String}
    {content : Bytes} (h : Openable (future { disk } events) path place content) :
    Log.Intact content (Log.accepted content) (Log.scan content).batches ∧
      ∀ name id options networked,
        (options.removeCorrupted = true ∨ content = Log.accepted content →
          Restores (future { disk } events) name path id options networked place
            (Log.scan content).batches (Log.accepted content)) ∧
        (options.removeCorrupted = false → content ≠ Log.accepted content →
          ∃ text w', (openNamed name path id options networked).exec (future { disk } events) =
              (.error (.corrupted text), w') ∧
            Openable w' path place content ∧
              ∀ name' id' options' networked', options'.removeCorrupted = true →
                Restores w' name' path id' options' networked' place (Log.scan content).batches
                  (Log.accepted content)) := by
  have haccounted := accounted_future disk events
  refine ⟨(Log.intact_accepted content).1, fun name id options networked => ⟨?_, ?_⟩⟩
  · exact h.restores haccounted name id networked
  · intro hoptions hdamaged
    obtain ⟨text, w', hexec, hopenable⟩ := h.refused name id networked hoptions hdamaged
    refine ⟨text, w', hexec, hopenable, fun name' id' options' networked' hremove => ?_⟩
    -- The world that is left is one that can come about.
    have haccounted' := accounted_openNamed haccounted name path id options networked
    rw [hexec] at haccounted'
    exact hopenable.restores haccounted' name' id' networked' (.inl hremove)

/-- A directory whose log ends in the first byte of a record that was never written. -/
def tornLog : List Event :=
  [.makeDirectories "/s",
    .writeFile "/s/data.log"
      [85, 75, 86, 76, 1, 15, 0, 0, 0, 1, 0, 0, 0, 1, 0, 0, 0, 1, 2, 0, 0, 0, 2, 3, 230, 148, 108, 173,
        85] false]

/-- The directory is refused as it is. It is opened without its last byte, an entry is put, and what comes
after it finds both entries. -/
theorem salvaged_of_openable_torn :
    (∃ text w, (openNamed "h" "/s" "s" {} false).exec (future {} tornLog) =
      (.error (.corrupted text), w)) ∧
    ∃ w₁ w₂ w₃ log,
      (openNamed "h" "/s" "s" { removeCorrupted := true } false).exec (future {} tornLog) = (.ok (), w₁) ∧
        (put (.direct 0) [⟨[4], [5]⟩]).exec w₁ = (.ok (), w₂) ∧
        (openNamed "k" "/s" "s" {} false).exec (w₂.dropHandle "h") = (.ok (), w₃) ∧
        Serving w₃ "k" w₂.next ["s"] (Log.replay [.put [⟨[1], [2, 3]⟩], .put [⟨[4], [5]⟩]]) log := by
  let content : Bytes :=
    [85, 75, 86, 76, 1, 15, 0, 0, 0, 1, 0, 0, 0, 1, 0, 0, 0, 1, 2, 0, 0, 0, 2, 3, 230, 148, 108, 173, 85]
  have hopenable : Openable (future {} tornLog) "/s" ["s"] content :=
    { found := by decide +kernel
      lock := by decide +kernel
      log := by decide +kernel
      free := by decide +kernel }
  have hbatches : (Log.scan content).batches = [.put [⟨[1], [2, 3]⟩]] := by decide +kernel
  obtain ⟨-, hopenings⟩ := salvaged_of_openable {} tornLog hopenable
  constructor
  case left =>
    obtain ⟨text, w, hexec, -⟩ := (hopenings "h" "s" {} false).2 rfl (by decide +kernel)
    exact ⟨text, w, hexec⟩
  case right =>
    obtain ⟨w₁, hexec, -, haccepted⟩ :=
      (hopenings "h" "s" { removeCorrupted := true } false).1 (.inl rfl)
    rw [hbatches] at haccepted
    have hanswer : ((put (.direct 0) [⟨[4], [5]⟩]).exec w₁).1 = .ok () := by
      have hworld := congrArg Prod.snd hexec
      subst hworld
      exact Answer.toOption_eq_some_iff.mp (by decide +kernel)
    have hput : (put (.direct 0) [⟨[4], [5]⟩]).exec w₁ =
        (.ok (), ((put (.direct 0) [⟨[4], [5]⟩]).exec w₁).2) := Prod.ext hanswer rfl
    obtain ⟨log, -, hreopen⟩ := haccepted (.put hput (.nil _))
    obtain ⟨w₃, hexec₃, hserving⟩ := hreopen "k" "s" {} false
    exact ⟨w₁, _, w₃, log, hexec, hput, hexec₃, hserving⟩

end ObjectStore.World
