import ObjectStore.Engine.Basic
import ObjectStore.Proofs.Engine.Disk
import ObjectStore.Proofs.Engine.Log

/-!
# Engines and their logs

An engine on disk persists a list of batches if the log of its directory holds the records of these
batches and nothing else, the engine knows how long that log is, and its table is what the batches
build. Opening a directory makes such an engine, and every write makes the list longer by one batch.

Main statements: `openDirectory_cases`, `Persists.write` and `persists_of_recover`.
-/

namespace ObjectStore

open Disk

theorem Log.replay_concat (batches : List Batch) (b : Batch) :
    replay (batches ++ [b]) = (replay batches).apply b := by
  simp [replay]

namespace Engine

/-! ## Places -/

theorem logPlace_ne_nil (place : List String) : logPlace place ≠ [] := by
  simp [logPlace]

theorem logPlace_injective {p q : List String} (h : logPlace p = logPlace q) : p = q :=
  List.append_cancel_right h

theorem logPlace_ne_lockPlace (p q : List String) : logPlace p ≠ lockPlace q := by
  intro h
  have hlast := (List.append_inj' h rfl).2
  simp at hlast

/-! ## Persisting engines -/

/-- The engine keeps exactly the given batches in the log of the directory at a place. -/
structure Persists (e : Engine) (d : Disk) (place : List String) (batches : List Batch)
    (bs : Bytes) : Prop where
  /-- The bytes are the records of the batches, one after the other. -/
  encoded : Log.encodeAll batches = .ok bs
  /-- The log holds the bytes. -/
  log : d.content? (logPlace place) = some bs
  /-- The engine knows where its log ends. -/
  backing : e.backing = .directory place bs.length
  /-- The engine holds what the batches build. -/
  table : e.table = Log.replay batches

section Writing

variable {e e' : Engine} {d d' : Disk} {place : List String} {batches : List Batch} {bs : Bytes}
  {b : Batch}

theorem write_of_isClosed (h : e.isClosed = true) : e.write b d = .error .closed := by
  simp [write, h]

/-- What an accepted batch leaves as it is, and that it comes to the table. -/
theorem table_of_write (h : e.write b d = .ok (e', d')) :
    e.isClosed = false ∧ e'.isClosed = false ∧ e'.directory? = e.directory? ∧
      e'.table = e.table.apply b := by
  unfold write at h
  split at h
  · cases h
  · rename_i hopen
    have hopen' : e.isClosed = false := by simpa using hopen
    split at h
    · rename_i hempty
      cases h
      -- An empty batch changes nothing, and so it makes the table that was there.
      refine ⟨hopen', hopen', rfl, ?_⟩
      cases b with
      | put entries =>
          rw [List.isEmpty_iff.mp hempty]
          rfl
      | delete keys =>
          rw [List.isEmpty_iff.mp hempty]
          rfl
    · split at h
      · cases h
        exact ⟨hopen', hopen', rfl, rfl⟩
      · rename_i hbacking
        split at h
        · cases h
        · cases h
          exact ⟨hopen', hopen', by simp [directory?, hbacking], rfl⟩

/-- An accepted batch changes no file but the log of the engine's directory. -/
theorem disk_of_write (h : e.write b d = .ok (e', d')) :
    d' = d ∨ ∃ place length record,
      e.backing = .directory place length ∧ Log.encode b = .ok record ∧
        d' = d.writeAt (logPlace place) length record := by
  unfold write at h
  split at h
  · cases h
  · split at h
    · cases h
      exact .inl rfl
    · split at h
      · cases h
        exact .inl rfl
      · rename_i place length hbacking
        split at h
        · cases h
        · rename_i record hrecord
          cases h
          exact .inr ⟨place, length, record, hbacking, hrecord, rfl⟩

/-- A file stays as it is if it is not the log of the engine's directory. -/
theorem content?_of_write (h : e.write b d = .ok (e', d')) {p : List String}
    (hp : ∀ place, e.directory? = some place → p ≠ logPlace place) : d'.content? p = d.content? p := by
  rcases disk_of_write h with rfl | ⟨place, length, record, hbacking, -, rfl⟩
  · rfl
  · exact content?_writeAt_of_ne _ (hp place (by simp [Engine.directory?, hbacking])) _ _

/-- Writing makes the list of batches longer by one, or changes nothing if the batch is empty. -/
theorem Persists.write (h : e.Persists d place batches bs) (hwrite : e.write b d = .ok (e', d')) :
    (b.isEmpty = true ∧ e' = e ∧ d' = d) ∨
      ∃ record, b.isEmpty = false ∧ Log.encode b = .ok record ∧
        e'.Persists d' place (batches ++ [b]) (bs ++ record) := by
  have htable := (table_of_write hwrite).2.2.2
  unfold Engine.write at hwrite
  split at hwrite
  · cases hwrite
  · split at hwrite
    · rename_i hempty
      cases hwrite
      exact .inl ⟨hempty, rfl, rfl⟩
    · rename_i hempty
      rw [h.backing] at hwrite
      simp only at hwrite
      split at hwrite
      · cases hwrite
      · rename_i record hrecord
        cases hwrite
        refine .inr ⟨record, by simpa using hempty, hrecord, ?_⟩
        -- The record goes right behind the others, where the engine knows the log to end.
        exact
          { encoded := Log.encodeAll_concat h.encoded hrecord
            log := content?_writeAt_self (logPlace_ne_nil place) h.log record
            backing := by simp
            table := by rw [htable, h.table, Log.replay_concat] }

/-- A batch that can be encoded is accepted by an engine that is open. -/
theorem Persists.write_eq_ok (h : e.Persists d place batches bs) (hopen : e.isClosed = false)
    {record : Bytes} (hb : Log.encode b = .ok record) : ∃ e' d', e.write b d = .ok (e', d') := by
  unfold Engine.write
  rw [hopen, h.backing, hb]
  cases b.isEmpty with
  | true => exact ⟨_, _, rfl⟩
  | false => exact ⟨_, _, rfl⟩

/-- Whether a log can take a batch: it is empty, or its lengths and counts can be recorded. -/
def Recordable (b : Batch) : Prop :=
  b.isEmpty = true ∨ ∃ record, Log.encode b = .ok record

/-- Whether an engine takes a batch: it is open, and if it has a log the batch can be recorded there. -/
structure Writes (e : Engine) (b : Batch) : Prop where
  isOpen : e.isClosed = false
  recordable : e.directory? = none ∨ Recordable b

theorem write_eq_ok_iff : (∃ e' d', e.write b d = .ok (e', d')) ↔ e.Writes b := by
  constructor
  · intro h
    obtain ⟨e', d', h⟩ := h
    have hopen := (table_of_write h).1
    refine ⟨hopen, ?_⟩
    cases hbacking : e.backing with
    | memory => exact .inl (by simp [directory?, hbacking])
    | directory place length =>
        unfold write at h
        cases hempty : b.isEmpty with
        | true => exact .inr (.inl hempty)
        | false =>
            cases hencode : Log.encode b with
            | error err => simp [hopen, hbacking, hempty, hencode] at h
            | ok record => exact .inr (.inr ⟨record, hencode⟩)
  · intro h
    unfold write
    rw [h.isOpen]
    cases hempty : b.isEmpty with
    | true => exact ⟨e, d, rfl⟩
    | false =>
        cases hbacking : e.backing with
        | memory => exact ⟨_, _, rfl⟩
        | directory place length =>
            rcases h.recordable with hnone | hrecord
            · simp [directory?, hbacking] at hnone
            · rcases hrecord with hempty' | ⟨record, hencode⟩
              · rw [hempty] at hempty'
                cases hempty'
              · simp only [hencode]
                exact ⟨_, _, rfl⟩

theorem Persists.close (h : e.Persists d place batches bs) :
    e.close.Persists d place batches bs where
  encoded := h.encoded
  log := h.log
  backing := h.backing
  table := h.table

theorem Persists.extends (h : e.Persists d place batches bs) (hext : Disk.Extends d d') :
    e.Persists d' place batches bs where
  encoded := h.encoded
  log := hext.content?_of_some h.log
  backing := h.backing
  table := h.table

theorem Persists.directory? (h : e.Persists d place batches bs) : e.directory? = some place := by
  simp [Engine.directory?, h.backing]

end Writing

/-! ## Opening a directory -/

section Opening

variable (path id : String) (options : Options) (networked : Bool)

theorem extends_prepareDirectory (d : Disk) :
    Extends d (prepareDirectory path id options d).2 ∧
      (∀ p, (prepareDirectory path id options d).2.content? p = d.content? p) ∧
      ∀ place, (prepareDirectory path id options d).1 = .ok place →
        (prepareDirectory path id options d).2.find path = .ok (place, .directory) := by
  unfold prepareDirectory
  split
  · rename_i place hfind
    refine ⟨.refl d, fun _ => rfl, fun place' h => ?_⟩
    cases h
    exact hfind
  · refine ⟨.refl d, fun _ => rfl, fun place h => ?_⟩
    cases h
  · split
    · obtain ⟨hext, hcontent, hfind⟩ := extends_makeDirectories path d
      rcases hmake : d.makeDirectories path with ⟨err | place, d'⟩
      · rw [hmake] at hext hcontent
        refine ⟨hext, hcontent, fun place h => ?_⟩
        cases h
      · rw [hmake] at hext hcontent hfind
        refine ⟨hext, hcontent, fun place' h => ?_⟩
        cases h
        exact hfind place rfl
    · refine ⟨.refl d, fun _ => rfl, fun place h => ?_⟩
      cases h

/-- Either the opening fails before the log is read, and no log changes, or the log of a directory that
is not held is read and recovered. -/
theorem openDirectory_cases (held : List String → Bool) (d : Disk) :
    (∃ err d', openDirectory path id options networked held d = (.error err, d') ∧
        Extends d d' ∧ ∀ p, d'.content? (logPlace p) = d.content? (logPlace p)) ∨
      ∃ place content d',
        openDirectory path id options networked held d =
            recover path id place options networked content d' ∧
          held place = false ∧ Extends d d' ∧ d'.find path = .ok (place, .directory) ∧
          d'.content? (logPlace place) = some content ∧
          (d'.content? (lockPlace place)).isSome ∧
          ∀ p, p ≠ place → d'.content? (logPlace p) = d.content? (logPlace p) := by
  unfold openDirectory
  obtain ⟨hext, hcontent, hfind⟩ := extends_prepareDirectory path id options d
  rcases hprepare : prepareDirectory path id options d with ⟨err | place, d₁⟩
  · rw [hprepare] at hext hcontent
    exact .inl ⟨err, d₁, rfl, hext, fun p => hcontent _⟩
  · rw [hprepare] at hext hcontent hfind
    simp only
    split
    · exact .inl ⟨_, d₁, rfl, hext, fun p => hcontent _⟩
    · rename_i lock d₂ hlock
      -- The lock is another file than any log.
      obtain ⟨hext₂, hlocked, hother⟩ := extends_openFile? hlock
      have hlog (p : List String) : d₂.content? (logPlace p) = d.content? (logPlace p) := by
        rw [hother _ (logPlace_ne_lockPlace p place)]
        exact hcontent _
      split
      · exact .inl ⟨_, d₂, rfl, hext.trans hext₂, hlog⟩
      · rename_i hheld
        have hheld' : held place = false := by simpa using hheld
        split
        · exact .inl ⟨_, d₂, rfl, hext.trans hext₂, hlog⟩
        · rename_i content d₃ hopen
          obtain ⟨hext₃, hcontent₃, hother₃⟩ := extends_openFile? hopen
          have hfind₃ := (hext₂.trans hext₃).keepsDirectories.find (hfind place rfl)
          refine .inr ⟨place, content, d₃, rfl, hheld', (hext.trans hext₂).trans hext₃, hfind₃,
            hcontent₃, ?_, fun p hp => ?_⟩
          · rw [hext₃.content?_of_some hlocked]
            rfl
          -- Only the log of this directory may be new.
          · rw [hother₃ _ fun h => hp (logPlace_injective h)]
            exact hlog p

/-- A directory that is there with a lock and a log is found by its path, and its log is read. -/
theorem openDirectory_of_find (held : List String → Bool) {d : Disk} {place : List String}
    {content lock : Bytes} (hfind : d.find path = .ok (place, .directory))
    (hlock : d.content? (lockPlace place) = some lock)
    (hlog : d.content? (logPlace place) = some content) (hheld : held place = false) :
    openDirectory path id options networked held d =
      recover path id place options networked content d := by
  have hlock' : d.openFile? (lockPlace place) = some (lock, d) := by
    simp [openFile?, content?_eq_some_iff.mp hlock]
  have hlog' : d.openFile? (logPlace place) = some (content, d) := by
    simp [openFile?, content?_eq_some_iff.mp hlog]
  unfold openDirectory prepareDirectory
  simp [hfind, hlock', hlog', hheld]

/-- What comes out of a recovery, whatever is in the log. -/
theorem engine_of_recover {place : List String} {content : Bytes} {d d' : Disk} {e : Engine}
    (h : recover path id place options networked content d = (.ok e, d')) :
    e =
      { id
        options
        table := Log.replay (Log.scan content).batches
        backing := .directory place (Log.scan content).validLength
        networked } := by
  unfold recover at h
  simp only at h
  split at h
  · cases h
    rfl
  · split at h
    · cases h
      rfl
    · cases h

/-- The log of some batches is recovered as a whole. -/
theorem recover_of_encodeAll {batches : List Batch} {content : Bytes} (place : List String)
    (h : Log.encodeAll batches = .ok content) (d : Disk) :
    recover path id place options networked content d =
      (.ok
        { id
          options
          table := Log.replay batches
          backing := .directory place content.length
          networked },
        d) := by
  unfold recover
  rw [Log.scan_encodeAll h]

theorem persists_of_recover {batches : List Batch} {content : Bytes} {place : List String}
    {d : Disk} (h : Log.encodeAll batches = .ok content)
    (hlog : d.content? (logPlace place) = some content) {e : Engine} {d' : Disk}
    (hrecover : recover path id place options networked content d = (.ok e, d')) :
    e.Persists d' place batches content ∧ d' = d := by
  rw [recover_of_encodeAll path id options networked place h d] at hrecover
  cases hrecover
  exact ⟨⟨h, hlog, rfl, rfl⟩, rfl⟩

/-- Of a log that was cut off the batches are recovered whose records are there as a whole. -/
theorem recover_of_take {batches : List Batch} {content : Bytes} {place : List String} {d : Disk}
    (h : Log.encodeAll batches = .ok content) {n : Nat} (hn : n ≤ content.length)
    (hlog : d.content? (logPlace place) = some (content.take n))
    (hoptions : options.removeCorrupted = true) :
    ∃ e d' bs, recover path id place options networked (content.take n) d = (.ok e, d') ∧
      e.isClosed = false ∧
        e.Persists d' place (batches.take (Log.recordsWithin batches n)) bs := by
  obtain ⟨front, damage, hfront, hprefix, hwhole, hscan⟩ := Log.scan_take_encodeAll h hn
  unfold recover
  rw [hscan, hoptions]
  -- Without damage the cut has fallen between two records, and nothing more is cut off.
  cases damage with
  | none => exact ⟨_, _, front, rfl, rfl, hfront, by rw [hlog, hwhole rfl], rfl, rfl⟩
  | some damage =>
      refine ⟨_, _, front, rfl, rfl, hfront, ?_, rfl, rfl⟩
      -- The recovery cuts back to the records that are there as a whole.
      have hcut : (content.take n).take front.length = front :=
        (List.prefix_iff_eq_take.mp hprefix).symm
      exact (content?_truncate_self (logPlace_ne_nil place) hlog _).trans (congrArg some hcut)

end Opening

end Engine

end ObjectStore
