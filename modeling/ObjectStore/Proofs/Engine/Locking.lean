import ObjectStore.Proofs.Engine.Opening

/-!
# Directories that were open before

A directory that an engine has had open keeps the file of the lock and a log of whole records. Whoever
opens it again by whatever path gets one of two answers: the directory is busy, and nothing but directories
on the way was made, or here is an engine that holds what the last one held.

Main statements: `openDirectory_of_held` and `openDirectory_of_persists`.
-/

namespace ObjectStore.Engine

open Disk

variable {path id : String} {options : Options} {networked : Bool} {held : List String → Bool}
  {d d' : Disk} {place : List String}

/-- A lock that is there is opened, and the disk stays as it was prepared. -/
theorem openFile?_lock_of_prepared (hlock : (d.content? (lockPlace place)).isSome) :
    ∃ lock, (prepareDirectory path id options d).2.openFile? (lockPlace place) =
      some (lock, (prepareDirectory path id options d).2) := by
  obtain ⟨lock, hlock⟩ := Option.isSome_iff_exists.mp hlock
  rw [← (extends_prepareDirectory path id options d).2.1] at hlock
  exact ⟨lock, by simp [openFile?, content?_eq_some_iff.mp hlock]⟩

/-- A directory that is held is busy. -/
theorem openDirectory_of_held (hprepared : (prepareDirectory path id options d).1 = .ok place)
    (hlock : (d.content? (lockPlace place)).isSome) (hheld : held place = true) :
    openDirectory path id options networked held d =
      (.error (.busy id), (prepareDirectory path id options d).2) := by
  obtain ⟨lock, hopened⟩ := @openFile?_lock_of_prepared path id options d place hlock
  unfold openDirectory
  rcases hprepare : prepareDirectory path id options d with ⟨err | place', d₁⟩
  · rw [hprepare] at hprepared
    cases hprepared
  · rw [hprepare] at hprepared hopened
    cases hprepared
    simp only at hopened
    simp [hopened, hheld]

/-- A directory that nobody holds gives what the engine holds that has persisted its batches there. -/
theorem openDirectory_of_persists {e : Engine} {batches : List Batch} {bs : Bytes}
    (hprepared : (prepareDirectory path id options d).1 = .ok place)
    (hlock : (d.content? (lockPlace place)).isSome) (hfree : held place = false)
    (hpersists : e.Persists d place batches bs) :
    openDirectory path id options networked held d =
      (.ok { id, options, table := e.table, backing := e.backing, networked },
        (prepareDirectory path id options d).2) := by
  obtain ⟨lock, hopened⟩ := @openFile?_lock_of_prepared path id options d place hlock
  have hlog := hpersists.log
  rw [← (extends_prepareDirectory path id options d).2.1] at hlog
  have hlogged : (prepareDirectory path id options d).2.openFile? (logPlace place) =
      some (bs, (prepareDirectory path id options d).2) := by
    simp [openFile?, content?_eq_some_iff.mp hlog]
  unfold openDirectory
  rcases hprepare : prepareDirectory path id options d with ⟨err | place', d₁⟩
  · rw [hprepare] at hprepared
    cases hprepared
  · rw [hprepare] at hprepared hopened hlogged
    cases hprepared
    simp only at hopened hlogged
    simp only [hopened, hlogged, hfree, Bool.false_eq_true, if_false]
    rw [recover_of_encodeAll path id options networked place hpersists.encoded, hpersists.table,
      hpersists.backing]

/-- No opening takes a lock away. -/
theorem lock_of_openDirectory {opened : Except StorageError Engine}
    (h : openDirectory path id options networked held d = (opened, d'))
    (hlock : (d.content? (lockPlace place)).isSome) : (d'.content? (lockPlace place)).isSome := by
  have hkept {d₁ : Disk} (hext : Extends d d₁) : (d₁.content? (lockPlace place)).isSome := by
    obtain ⟨lock, hlock⟩ := Option.isSome_iff_exists.mp hlock
    exact Option.isSome_of_eq_some (hext.content?_of_some hlock)
  rcases openDirectory_cases path id options networked held d with
    ⟨err, d₁, hfailed, hext, -⟩ | ⟨place', content, d₁, hrecover, -, hext, -⟩
  · rw [h] at hfailed
    cases hfailed
    exact hkept hext
  · rw [h] at hrecover
    unfold recover at hrecover
    simp only at hrecover
    -- At most the end of a log is cut off, and that is another file.
    split at hrecover
    · cases hrecover
      exact hkept hext
    · split at hrecover
      · cases hrecover
        rw [content?_truncate_of_ne _ (logPlace_ne_lockPlace _ _).symm]
        exact hkept hext
      · cases hrecover
        exact hkept hext

end ObjectStore.Engine
