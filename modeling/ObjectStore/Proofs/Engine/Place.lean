import ObjectStore.Proofs.Engine.Directory

/-!
# Where stores lie, and what their logs build

A path that leads to a directory leads to the same place on every disk, because what it passes on the way
has to be directories too. So the place of a store on disk is a matter of its path alone, and what the
store holds while nobody has it open is what the log at that place builds.

Main statements: `place_of_find`, `directory?_of_openDirectory` and `logTable_of_write`.
-/

namespace ObjectStore

/-! ## Places of paths -/

namespace Path

/-- Where a name leads from a directory. -/
def next (place : List String) (name : String) : List String :=
  if name = "." then place else if name = ".." then place.dropLast else place ++ [name]

/-- Where a path leads if it leads to anything. -/
def place (path : String) : List String :=
  (names path).foldl next []

end Path

namespace Disk

/-- What is entered is a directory, by a name that is not too long. -/
theorem directory_of_enter {d : Disk} {place next : List String} {name : String}
    (h : d.enter place name = .ok next) :
    d.node? place = some .directory ∧ next = Path.next place name ∧
      (name = "." ∨ name = ".." ∨ name.utf8ByteSize ≤ Path.nameLimit) := by
  unfold enter at h
  unfold Path.next
  split at h
  · cases h
  · cases h
  · rename_i hnode
    refine ⟨hnode, ?_⟩
    split at h
    · rename_i hdot
      cases h
      exact ⟨by rw [if_pos hdot], .inl hdot⟩
    · rename_i hdot
      rw [if_neg hdot]
      split at h
      · rename_i hup
        cases h
        exact ⟨by rw [if_pos hup], .inr (.inl hup)⟩
      · rename_i hup
        split at h
        · cases h
        · rename_i hlong
          cases h
          exact ⟨by rw [if_neg hup], .inr (.inr (Nat.le_of_not_lt hlong))⟩

theorem place_of_follow {d : Disk} {names place : List String} (h : d.follow names = .ok place) :
    place = names.foldl Path.next [] := by
  unfold follow at h
  generalize ([] : List String) = start at h ⊢
  induction names generalizing start with
  | nil =>
      cases h
      rfl
  | cons name names ih =>
      rw [List.foldlM_cons] at h
      obtain ⟨next, henter, hrest⟩ := Answer.bind_eq_ok_iff.mp h
      obtain ⟨-, hnext, -⟩ := directory_of_enter henter
      rw [List.foldl_cons, ← hnext]
      exact ih next hrest

theorem place_of_find {d : Disk} {path : String} {place : List String} {node : Node}
    (h : d.find path = .ok (place, node)) : place = Path.place path :=
  place_of_follow (follow_of_find h).2.1

end Disk

namespace Engine

/-- A directory is opened at the place of its path. -/
theorem directory?_of_openDirectory {path id : String} {options : Options} {networked : Bool}
    {held : List String → Bool} {d d' : Disk} {e : Engine}
    (h : openDirectory path id options networked held d = (.ok e, d')) :
    e.directory? = some (Path.place path) := by
  rcases openDirectory_cases path id options networked held d with
    ⟨err, d₁, hfailed, -⟩ | ⟨place, content, d₁, hrecover, -, -, hfind, -⟩
  · rw [h] at hfailed
    cases hfailed
  · rw [h] at hrecover
    rw [engine_of_recover path id options networked hrecover.symm, ← Disk.place_of_find hfind]
    rfl

/-! ## Tables of logs -/

/-- What the log of the directory at a place builds; nothing if there is none. -/
def logTable (d : Disk) (place : List String) : Table :=
  Log.replay (Log.scan ((d.content? (logPlace place)).getD [])).batches

theorem logTable_congr {d d' : Disk} {place : List String}
    (h : d'.content? (logPlace place) = d.content? (logPlace place)) :
    logTable d' place = logTable d place := by
  unfold logTable
  rw [h]

/-- A log that is added to a disk is empty. -/
theorem logTable_of_extends {d d' : Disk} (h : Disk.Extends d d') (place : List String) :
    logTable d' place = logTable d place := by
  cases hnew : d'.content? (logPlace place) with
  | none =>
      apply logTable_congr
      cases hold : d.content? (logPlace place) with
      | none => exact hnew
      | some bs =>
          rw [h.content?_of_some hold] at hnew
          cases hnew
  | some bs =>
      rcases h.of_content?_eq_some hnew with hold | ⟨hnone, rfl⟩
      · exact logTable_congr (hnew.trans hold.symm)
      · unfold logTable
        rw [hnew, hnone]
        rfl

theorem Persists.logTable_eq {e : Engine} {d : Disk} {place : List String} {batches : List Batch}
    {bs : Bytes} (h : e.Persists d place batches bs) : logTable d place = e.table := by
  unfold logTable
  rw [h.log, Option.getD_some, Log.scan_encodeAll h.encoded, h.table]

/-- A batch that is accepted comes to the log of the engine's directory and to no other log. -/
theorem logTable_of_write {e e' : Engine} {d d' : Disk} {batch : Batch}
    (hpersists : ∀ place, e.directory? = some place → ∃ batches bs, e.Persists d place batches bs)
    (hwrite : e.write batch d = .ok (e', d')) (place : List String) :
    logTable d' place = logTable d place ∨
      e.directory? = some place ∧ logTable d place = e.table ∧ logTable d' place = e'.table := by
  by_cases hplace : e.directory? = some place
  · obtain ⟨batches, bs, hbefore⟩ := hpersists place hplace
    rcases hbefore.write hwrite with ⟨-, -, rfl⟩ | ⟨record, -, -, hafter⟩
    · exact .inl rfl
    · exact .inr ⟨hplace, hbefore.logTable_eq, hafter.logTable_eq⟩
  · refine .inl (logTable_congr (content?_of_write hwrite fun place' hplace' heq => hplace ?_))
    rw [hplace', logPlace_injective heq]

/-- What an accepted batch leaves as it is. -/
theorem id_of_write {e e' : Engine} {d d' : Disk} {batch : Batch}
    (h : e.write batch d = .ok (e', d')) : e'.id = e.id ∧ e'.options = e.options := by
  unfold write at h
  split at h
  · cases h
  · split at h
    · cases h
      exact ⟨rfl, rfl⟩
    · split at h
      · cases h
        exact ⟨rfl, rfl⟩
      · split at h
        · cases h
        · cases h
          exact ⟨rfl, rfl⟩

end Engine

end ObjectStore
