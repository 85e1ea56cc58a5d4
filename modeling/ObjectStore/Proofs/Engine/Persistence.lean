import ObjectStore.Proofs.Engine.Directory

/-!
# An engine on disk behaves as one in memory

The same calls go to an engine on disk and to one in memory. The one on disk may be dropped and opened
again at any time, after which it knows nothing but what is in the directory; for the one in memory
that only undoes a close. Both give the same replies, because the log always holds the records of the
batches accepted so far, and these build the table.

Main statement: `run_onDisk_eq_run_inMemory`.
-/

namespace ObjectStore.Engine

open Disk

/-! ## Calls and replies -/

/-- A call to an engine. -/
inductive Call where
  /-- Apply a batch. -/
  | write (batch : Batch)
  /-- List the entries whose keys start with the given bytes. -/
  | scan (front : Bytes)
  /-- Count the entries. -/
  | size
  | close
  /-- Drop the engine and open its directory again. -/
  | reopen (options : Options)
  deriving DecidableEq, Repr

/-- What an engine replies to a call. -/
inductive Reply where
  | done (outcome : Except StorageError Unit)
  | entries (found : Except StorageError (List Entry))
  | size (count : Nat)

/-- One call to an engine on the directory that a path leads to. -/
def stepOnDisk (path : String) (s : Engine × Disk) : Call → Reply × (Engine × Disk)
  | .write batch =>
    match s.1.write batch s.2 with
    | .ok s' => (.done (.ok ()), s')
    | .error err => (.done (.error err), s)
  | .scan front => (.entries (s.1.scan front), s)
  | .size => (.size s.1.table.size, s)
  | .close => (.done (.ok ()), (s.1.close, s.2))
  | .reopen options =>
    -- The dropped engine has let go of the directory, so that nobody holds it.
    match openDirectory path s.1.id options s.1.networked (fun _ => false) s.2 with
    | (.ok e, d) => (.done (.ok ()), (e, d))
    | (.error err, d) => (.done (.error err), (s.1, d))

/-- The same call to an engine in memory, which needs no disk. -/
def stepInMemory (m : Engine) : Call → Reply × Engine
  | .write batch =>
    match m.write batch {} with
    | .ok (m', _) => (.done (.ok ()), m')
    | .error err => (.done (.error err), m)
  | .scan front => (.entries (m.scan front), m)
  | .size => (.size m.table.size, m)
  | .close => (.done (.ok ()), m.close)
  | .reopen _ => (.done (.ok ()), { m with isClosed := false })

/-- The replies to a list of calls, and the state after them. -/
def run {σ : Type} (step : σ → Call → Reply × σ) (s : σ) : List Call → List Reply × σ
  | [] => ([], s)
  | call :: calls =>
    let (reply, s) := step s call
    let (replies, s) := run step s calls
    (reply :: replies, s)

/-- The batch that a call has added to the log, going by the reply. -/
def Call.accepted : Call → Reply → Option Batch
  | .write batch, .done (.ok ()) => if batch.isEmpty then none else some batch
  | _, _ => none

/-- The batches that are not empty and were accepted, in order. -/
def accepted (calls : List Call) (replies : List Reply) : List Batch :=
  (calls.zip replies).filterMap fun (call, reply) => call.accepted reply

theorem accepted_cons (call : Call) (reply : Reply) (calls : List Call) (replies : List Reply) :
    accepted (call :: calls) (reply :: replies) =
      (call.accepted reply).toList ++ accepted calls replies := by
  unfold accepted
  rw [List.zip_cons_cons, List.filterMap_cons]
  cases h : call.accepted reply <;> simp [h]

/-! ## One call -/

/-- The engine on disk is where the engine in memory is: it persists the batches accepted so far, it can
be opened again, and both hold the same. -/
structure Follows (path : String) (s : Engine × Disk) (m : Engine) (place : List String)
    (batches : List Batch) (bs : Bytes) : Prop where
  persists : s.1.Persists s.2 place batches bs
  /-- The path leads to the directory. -/
  found : s.2.find path = .ok (place, .directory)
  /-- The directory has its lock. -/
  locked : (s.2.content? (lockPlace place)).isSome
  memory : m.backing = .memory
  table : m.table = s.1.table
  closed : m.isClosed = s.1.isClosed

section Step

variable {path : String} {s : Engine × Disk} {m : Engine} {place : List String}
  {batches : List Batch} {bs : Bytes}

theorem write_inMemory (hmemory : m.backing = .memory) (hopen : m.isClosed = false) (b : Batch)
    (d : Disk) : m.write b d = .ok ({ m with table := m.table.apply b }, d) := by
  unfold write
  rw [hopen, hmemory]
  cases hempty : b.isEmpty with
  | false => simp
  | true =>
      have htable : m.table.apply b = m.table := by
        cases b with
        | put entries =>
            rw [List.isEmpty_iff.mp hempty]
            rfl
        | delete keys =>
            rw [List.isEmpty_iff.mp hempty]
            rfl
      cases m
      simp_all

/-- What a write leaves of the directory. -/
theorem found_of_write {d d' : Disk} {e e' : Engine} {b : Batch}
    (h : e.Persists d place batches bs) (hwrite : e.write b d = .ok (e', d')) :
    KeepsDirectories d d' ∧ d'.content? (lockPlace place) = d.content? (lockPlace place) := by
  rcases disk_of_write hwrite with rfl | ⟨place', length, record, hbacking, -, rfl⟩
  · exact ⟨.refl _, rfl⟩
  · rw [h.backing] at hbacking
    cases hbacking
    have hne : lockPlace place ≠ logPlace place := (logPlace_ne_lockPlace place place).symm
    exact ⟨.writeAt h.log _ _, content?_writeAt_of_ne d hne _ _⟩

theorem Follows.write (h : Follows path s m place batches bs) {b : Batch}
    (hencodable : ∃ record, Log.encode b = .ok record) :
    (stepOnDisk path s (.write b)).1 = (stepInMemory m (.write b)).1 ∧
      ∃ bs', Follows path (stepOnDisk path s (.write b)).2 (stepInMemory m (.write b)).2 place
        (batches ++ ((Call.write b).accepted (stepOnDisk path s (.write b)).1).toList) bs' := by
  obtain ⟨e, d⟩ := s
  cases hclosed : e.isClosed with
  | true =>
      -- A closed engine refuses on both sides, and nothing changes.
      have hm : m.isClosed = true := h.closed.trans hclosed
      simp only [stepOnDisk, stepInMemory, write_of_isClosed hclosed, write_of_isClosed hm,
        Call.accepted, Option.toList_none, List.append_nil]
      exact ⟨trivial, bs, h⟩
  | false =>
      have hm : m.isClosed = false := h.closed.trans hclosed
      obtain ⟨record, hrecord⟩ := hencodable
      -- The engine on disk asks for nothing but a batch that can be encoded.
      obtain ⟨e', d', hwrite⟩ := h.persists.write_eq_ok hclosed hrecord
      obtain ⟨-, hopen', -, htable⟩ := table_of_write hwrite
      obtain ⟨hdirectories, hlock⟩ := found_of_write h.persists hwrite
      have hfound := hdirectories.find h.found
      have hlocked : (d'.content? (lockPlace place)).isSome := by
        rw [hlock]
        exact h.locked
      have hmtable : m.table.apply b = e'.table := by
        rw [htable, h.table]
      simp only [stepOnDisk, stepInMemory, hwrite, write_inMemory h.memory hm, Call.accepted]
      refine ⟨trivial, ?_⟩
      -- An empty batch leaves no record, and no other batch is left out.
      rcases h.persists.write hwrite with ⟨hempty, rfl, rfl⟩ | ⟨record', hempty, -, hpersists⟩
      · rw [hempty]
        simp only [if_true, Option.toList_none, List.append_nil]
        exact ⟨bs, h.persists, hfound, hlocked, h.memory, hmtable, hm.trans hopen'.symm⟩
      · rw [hempty]
        exact ⟨bs ++ record', hpersists, hfound, hlocked, h.memory, hmtable, hm.trans hopen'.symm⟩

theorem Follows.reopen (h : Follows path s m place batches bs) (options : Options) :
    (stepOnDisk path s (.reopen options)).1 = .done (.ok ()) ∧
      Follows path (stepOnDisk path s (.reopen options)).2 { m with isClosed := false } place batches
        bs := by
  obtain ⟨lock, hlock⟩ := Option.isSome_iff_exists.mp h.locked
  have hopen := openDirectory_of_find path s.1.id options s.1.networked (fun _ => false) h.found hlock
    h.persists.log rfl
  -- The log holds whole records only, so that nothing is cut off and the options do not matter.
  rw [recover_of_encodeAll path s.1.id options s.1.networked place h.persists.encoded] at hopen
  simp only [stepOnDisk, hopen]
  exact ⟨trivial, ⟨h.persists.encoded, h.persists.log, rfl, rfl⟩, h.found, h.locked, h.memory,
    h.table.trans h.persists.table, rfl⟩

/-- Every call gets the same reply from both engines, and they go on together. -/
theorem Follows.step (h : Follows path s m place batches bs) {call : Call}
    (hencodable : ∀ b, call = .write b → ∃ record, Log.encode b = .ok record) :
    (stepOnDisk path s call).1 = (stepInMemory m call).1 ∧
      ∃ bs', Follows path (stepOnDisk path s call).2 (stepInMemory m call).2 place
        (batches ++ (call.accepted (stepOnDisk path s call).1).toList) bs' := by
  cases call with
  | write b => exact h.write (hencodable b rfl)
  | scan front =>
      refine ⟨?_, bs, by simpa [Call.accepted, stepOnDisk, stepInMemory] using h⟩
      simp [stepOnDisk, stepInMemory, scan, h.closed, h.table]
  | size =>
      refine ⟨?_, bs, by simpa [Call.accepted, stepOnDisk, stepInMemory] using h⟩
      simp [stepOnDisk, stepInMemory, h.table]
  | close =>
      have hclose : Follows path (s.1.close, s.2) m.close place batches bs :=
        ⟨h.persists.close, h.found, h.locked, h.memory, h.table, rfl⟩
      exact ⟨rfl, bs, by simpa [Call.accepted, stepOnDisk, stepInMemory] using hclose⟩
  | reopen options =>
      obtain ⟨hreply, hfollows⟩ := h.reopen options
      exact ⟨hreply, bs, by simpa [Call.accepted, stepInMemory] using hfollows⟩

end Step

/-! ## All calls -/

theorem Follows.run {path : String} {s : Engine × Disk} {m : Engine} {place : List String}
    {batches : List Batch} {bs : Bytes} (h : Follows path s m place batches bs) {calls : List Call}
    (hencodable : ∀ b, .write b ∈ calls → ∃ record, Log.encode b = .ok record) :
    (run (stepOnDisk path) s calls).1 = (run stepInMemory m calls).1 ∧
      ∃ bs', Follows path (run (stepOnDisk path) s calls).2 (run stepInMemory m calls).2 place
        (batches ++ accepted calls (run (stepOnDisk path) s calls).1) bs' := by
  induction calls generalizing s m batches bs with
  | nil => exact ⟨rfl, bs, by simpa [accepted, Engine.run] using h⟩
  | cons call calls ih =>
      obtain ⟨hreply, bs', hstep⟩ := h.step fun b hb => hencodable b (hb ▸ List.mem_cons_self)
      obtain ⟨hreplies, bs'', hrun⟩ := ih hstep fun b hb => hencodable b (List.mem_cons_of_mem _ hb)
      simp only [Engine.run, hreply, hreplies, true_and]
      rw [← hreplies, ← hreply, accepted_cons, ← List.append_assoc]
      exact ⟨bs'', hrun⟩

/-- An engine that was opened on a directory without log gives the same replies as an engine in memory,
however often it is dropped and opened again on the way. Afterwards its log is the records of the
accepted batches one after the other, the engine knows the length of the log, and the log gives back
the table. -/
theorem run_onDisk_eq_run_inMemory {path id : String} {options : Options} {networked : Bool}
    {held : List String → Bool} {d₀ d : Disk} {e : Engine}
    (hopen : openDirectory path id options networked held d₀ = (.ok e, d))
    (hfresh : ∀ place, e.directory? = some place → d₀.content? (logPlace place) = none)
    {calls : List Call}
    (hencodable : ∀ b, .write b ∈ calls → ∃ record, Log.encode b = .ok record) :
    let onDisk := run (stepOnDisk path) (e, d) calls
    let inMemory := run stepInMemory { id, options, networked } calls
    onDisk.1 = inMemory.1 ∧ onDisk.2.1.isClosed = inMemory.2.isClosed ∧
      onDisk.2.1.table = inMemory.2.table ∧
      ∃ place bs,
        e.directory? = some place ∧
        Log.encodeAll (accepted calls onDisk.1) = .ok bs ∧
        onDisk.2.2.content? (logPlace place) = some bs ∧
        onDisk.2.1.backing = .directory place bs.length ∧
        (Log.scan bs).damage = none ∧
        Log.replay (Log.scan bs).batches = onDisk.2.1.table := by
  intro onDisk inMemory
  rcases openDirectory_cases path id options networked held d₀ with
    ⟨err, d', hfailed, -, -⟩ | ⟨place, content, d', hrecover, -, hext, hfind, hlog, hlock, -⟩
  · rw [hopen] at hfailed
    cases hfailed
  · rw [hopen] at hrecover
    have hengine := engine_of_recover path id options networked hrecover.symm
    have hdirectory : e.directory? = some place := by
      rw [hengine]
      rfl
    -- There was no log before, so the one that is there now is empty.
    have hempty : content = [] := by
      rcases hext.of_content?_eq_some hlog with hold | ⟨-, hempty⟩
      · rw [hfresh place hdirectory] at hold
        cases hold
      · exact hempty
    subst hempty
    have hnone : Log.encodeAll [] = .ok [] := rfl
    obtain ⟨hpersists, rfl⟩ :=
      persists_of_recover path id options networked hnone hlog hrecover.symm
    have hfollows : Follows path (e, d) { id, options, networked } place [] [] :=
      ⟨hpersists, hfind, hlock, rfl, hpersists.table.symm, by rw [hengine]⟩
    obtain ⟨hreplies, bs, hrun⟩ := hfollows.run hencodable
    rw [List.nil_append] at hrun
    have hscan := Log.scan_encodeAll hrun.persists.encoded
    refine ⟨hreplies, hrun.closed.symm, hrun.table.symm, place, bs, hdirectory,
      hrun.persists.encoded, hrun.persists.log, hrun.persists.backing, ?_, ?_⟩
    · rw [hscan]
    · rw [hscan, hrun.persists.table]

/-- An engine that is closed and opened again between two writes. -/
theorem run_onDisk_eq_run_inMemory_reopened :
    let calls : List Call :=
      [.write (.put [{ key := [1], value := [2] }]), .close, .scan [], .reopen {},
        .write (.delete [[1], [1], [3]]), .size]
    ∃ e d, openDirectory "/s" "s" {} false (fun _ => false) {} = (.ok e, d) ∧
      (∀ place, e.directory? = some place → ({} : Disk).content? (logPlace place) = none) ∧
      (∀ b, .write b ∈ calls → ∃ record, Log.encode b = .ok record) ∧
      (run (stepOnDisk "/s") (e, d) calls).1 = (run stepInMemory { id := "s" } calls).1 := by
  intro calls
  have hsome : (openDirectory "/s" "s" {} false (fun _ => false) {}).1.toOption =
      some { id := "s", backing := .directory ["s"] 0 } := by
    decide +kernel
  have hok := Answer.toOption_eq_some_iff.mp hsome
  have hempty (place : List String) : ({} : Disk).content? (logPlace place) = none := by
    simp [content?, node?, logPlace_ne_nil]
  have hencodable : ∀ b, .write b ∈ calls → ∃ record, Log.encode b = .ok record := by
    intro b hb
    simp only [calls, List.mem_cons, Call.write.injEq, reduceCtorEq, List.not_mem_nil, false_or,
      or_false] at hb
    rcases hb with rfl | rfl
    · exact Log.exists_encode_eq_ok (by decide +kernel)
    · exact Log.exists_encode_eq_ok (by decide +kernel)
  rcases hopen : openDirectory "/s" "s" {} false (fun _ => false) {} with ⟨opened, d⟩
  rw [hopen] at hok
  subst hok
  have hrun := run_onDisk_eq_run_inMemory hopen (fun place _ => hempty place) hencodable
  exact ⟨_, d, rfl, fun place _ => hempty place, hencodable, hrun.1⟩

end ObjectStore.Engine
