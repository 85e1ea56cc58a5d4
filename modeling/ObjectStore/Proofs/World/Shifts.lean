import ObjectStore.Proofs.Engine.Locking
import ObjectStore.Proofs.World.Custody

/-!
# One live engine for each directory

Whatever the logs hold, the disk and the engines change by a few kinds of shifts only. An engine that comes
to a directory is newer than all that were there, and it comes only while none of them is held. So the
engine that came last has the log to itself: it persists its batches there, whether it is still held or
not, and no other engine of the directory is held.

An engine that is not held any more is out of reach: it is never held again, and its table stays.

Main statements: `Latched.shift` and `Shifts.rests`.
-/

namespace ObjectStore.World

open Engine

/-! ## Shifts -/

/-- One change to the disk, to the engines or to what is held. -/
inductive Shift (w : World) : World → Prop where
  /-- No engine comes or goes, and nothing is held that was not held before. -/
  | tame {w' : World} : Tame w w' → (∀ r, w.Has r → w'.Has r) → Shift w w'
  /-- Directories and empty files come to the disk, but no logs. -/
  | grow {disk : Disk} : Disk.Extends w.disk disk →
      (∀ place, disk.content? (logPlace place) = w.disk.content? (logPlace place)) →
      Shift w { w with disk }
  /-- An engine in memory is made. -/
  | make {w' : World} {e : Engine} : Fresh w → e.directory? = none → w'.disk = w.disk →
      w'.engines = w.engines.insert w.next e →
      (∀ r, w'.isEngineHeld r = true → w.isEngineHeld r = true ∨ r = w.next) → Shift w w'
  /-- A directory is opened. -/
  | openDirectory {w' : World} {path id : String} {options : Options} {networked : Bool} {e : Engine} :
      Fresh w →
      Engine.openDirectory path id options networked w.isDirectoryHeld w.disk = (.ok e, w'.disk) →
      w'.engines = w.engines.insert w.next e →
      (∀ r, w'.isEngineHeld r = true → w.isEngineHeld r = true ∨ r = w.next) → Shift w w'
  /-- An engine that is held applies a batch. -/
  | write {r : EngineRef} {batch : Batch} {e e' : Engine} {disk : Disk} :
      w.isEngineHeld r = true → w.engines.get? r = some e → e.write batch w.disk = .ok (e', disk) →
      Shift w { w with engines := w.engines.insert r e', disk }

/-- Any number of shifts. -/
abbrev Shifts : World → World → Prop :=
  Relation.ReflTransGen Shift

/-! ## The engine that came last -/

/-- An engine has been opened on the directory at a place. -/
def Sits (w : World) (r : EngineRef) (place : List String) : Prop :=
  ∃ e, w.engines.get? r = some e ∧ e.directory? = some place

/-- Of all engines of a directory this one came last. -/
def IsLast (w : World) (r : EngineRef) (place : List String) : Prop :=
  w.Sits r place ∧ ∀ r', w.Sits r' place → r' ≤ r

/-- The engine that came last has the directory to itself. -/
structure Latched (w : World) : Prop where
  locked : ∀ {r place}, w.Sits r place → (w.disk.content? (lockPlace place)).isSome
  persists : ∀ {r e place}, w.IsLast r place → w.engines.get? r = some e →
    ∃ batches bs, e.Persists w.disk place batches bs
  /-- No other engine of the directory is held. -/
  last : ∀ {r place}, w.Sits r place → w.isEngineHeld r = true → w.IsLast r place

section Sits

variable {w w' : World} {r r' : EngineRef} {place : List String}

theorem IsLast.eq (h : w.IsLast r place) (h' : w.IsLast r' place) : r = r' :=
  Nat.le_antisymm (h'.2 r h.1) (h.2 r' h'.1)

theorem isLast_congr (h : ∀ r, w'.Sits r place ↔ w.Sits r place) :
    w'.IsLast r place ↔ w.IsLast r place := by
  unfold IsLast
  simp only [h]

theorem Fresh.not_sits (h : Fresh w) (hr : w.next ≤ r) : ¬ w.Sits r place := by
  rintro ⟨e, he, -⟩
  rw [(h r hr).1] at he
  cases he

theorem Fresh.ne_next_of_sits (h : Fresh w) (hr : w.Sits r place) : r ≠ w.next := by
  rintro rfl
  exact h.not_sits (Nat.le_refl _) hr

/-- An engine that comes sits where it sits, and the others stay. -/
theorem sits_iff_of_insert (h : Fresh w) {e : Engine}
    (hengines : w'.engines = w.engines.insert w.next e) :
    w'.Sits r place ↔ w.Sits r place ∨ r = w.next ∧ e.directory? = some place := by
  constructor
  · rintro ⟨e', he', hplace⟩
    rw [hengines, SortedMap.get?_insert] at he'
    split at he'
    · rename_i heq
      cases he'
      exact .inr ⟨heq, hplace⟩
    · exact .inl ⟨e', he', hplace⟩
  · rintro (hr | ⟨rfl, hplace⟩)
    · obtain ⟨e', he', hplace⟩ := hr
      refine ⟨e', ?_, hplace⟩
      rw [hengines, SortedMap.get?_insert, if_neg (h.ne_next_of_sits ⟨e', he', hplace⟩), he']
    · exact ⟨e, by rw [hengines, SortedMap.get?_insert, if_pos rfl], hplace⟩

/-- Engines that are still there have the directories that they had. -/
theorem Tame.sits_iff (h : Tame w w') (hhas : ∀ r, w.Has r → w'.Has r) (r : EngineRef) :
    w'.Sits r place ↔ w.Sits r place := by
  constructor
  · rintro ⟨e', he', hplace⟩
    obtain ⟨e, he, -, hbacking⟩ := h.engines he'
    exact ⟨e, he, by rw [← hplace]; simp only [Engine.directory?, hbacking]⟩
  · rintro ⟨e, he, hplace⟩
    obtain ⟨e', he'⟩ := hhas r ⟨e, he⟩
    obtain ⟨e₀, he₀, -, hbacking⟩ := h.engines he'
    rw [he] at he₀
    cases he₀
    exact ⟨e', he', by rw [← hplace]; simp only [Engine.directory?, hbacking]⟩

end Sits

/-! ## Every shift keeps the last engine in place -/

namespace Latched

variable {w w' : World}

/-- Where no directory gets a new engine, the last engines go on persisting. -/
theorem of_sits (h : Latched w) (hsits : ∀ {r place}, w'.Sits r place ↔ w.Sits r place)
    (hheld : ∀ {r place}, w.Sits r place → w'.isEngineHeld r = true → w.isEngineHeld r = true)
    (hlock : ∀ {place}, (w.disk.content? (lockPlace place)).isSome →
      (w'.disk.content? (lockPlace place)).isSome)
    (hpersists : ∀ {r e' place}, w.IsLast r place → w'.engines.get? r = some e' →
      ∃ batches bs, e'.Persists w'.disk place batches bs) : Latched w' where
  locked hr := hlock (h.locked (hsits.mp hr))
  persists hlast he' := hpersists ((isLast_congr fun _ => hsits).mp hlast) he'
  last hr hheld' :=
    (isLast_congr fun _ => hsits).mpr (h.last (hsits.mp hr) (hheld (hsits.mp hr) hheld'))

theorem tame (h : Latched w) (htame : Tame w w') (hhas : ∀ r, w.Has r → w'.Has r) : Latched w' := by
  refine h.of_sits (htame.sits_iff hhas _) (fun _ => htame.held) (fun hlock => by rwa [htame.disk]) ?_
  intro r e' place hlast he'
  obtain ⟨e, he, htable, hbacking⟩ := htame.engines he'
  obtain ⟨batches, bs, hpersists⟩ := h.persists hlast he
  refine ⟨batches, bs, hpersists.encoded, ?_, hbacking.trans hpersists.backing,
    htable.trans hpersists.table⟩
  rw [htame.disk]
  exact hpersists.log

theorem grow (h : Latched w) {disk : Disk} (hext : Disk.Extends w.disk disk) :
    Latched { w with disk } := by
  refine h.of_sits Iff.rfl (fun _ hheld => hheld) (fun {place} hlock => ?_) fun hlast he => ?_
  · obtain ⟨lock, hlock⟩ := Option.isSome_iff_exists.mp hlock
    exact Option.isSome_of_eq_some (hext.content?_of_some hlock)
  · obtain ⟨batches, bs, hpersists⟩ := h.persists hlast he
    exact ⟨batches, bs, hpersists.extends hext⟩

theorem make (h : Latched w) {e : Engine} (hfresh : Fresh w) (hnone : e.directory? = none)
    (hdisk : w'.disk = w.disk) (hengines : w'.engines = w.engines.insert w.next e)
    (hheld : ∀ r, w'.isEngineHeld r = true → w.isEngineHeld r = true ∨ r = w.next) : Latched w' := by
  refine h.of_sits (fun {r place} => ?_) (fun {r place} hr hheld' => ?_)
    (fun hlock => by rwa [hdisk]) fun {r e' place} hlast he' => ?_
  · simp [sits_iff_of_insert hfresh hengines, hnone]
  · exact (hheld r hheld').resolve_right (hfresh.ne_next_of_sits hr)
  · rw [hengines, SortedMap.get?_insert, if_neg (hfresh.ne_next_of_sits hlast.1)] at he'
    rw [hdisk]
    exact h.persists hlast he'

/-- The engine that comes to a directory is the last, and none that was there before is held. -/
theorem openDirectory (h : Latched w) {path id : String} {options : Options} {networked : Bool}
    {e : Engine} (hfresh : Fresh w)
    (hopen : Engine.openDirectory path id options networked w.isDirectoryHeld w.disk = (.ok e, w'.disk))
    (hengines : w'.engines = w.engines.insert w.next e)
    (hheld : ∀ r, w'.isEngineHeld r = true → w.isEngineHeld r = true ∨ r = w.next) : Latched w' := by
  have hopened := opened_of_openDirectory hopen
  obtain ⟨batches, bs, hpersists⟩ := hopened.persists
  have hget (r : EngineRef) :
      w'.engines.get? r = if r = w.next then some e else w.engines.get? r := by
    rw [hengines, SortedMap.get?_insert]
  have hsits {r : EngineRef} {place : List String} :
      w'.Sits r place ↔ w.Sits r place ∨ r = w.next ∧ place = Path.place path := by
    rw [sits_iff_of_insert hfresh hengines, hpersists.directory?, Option.some.injEq, @eq_comm _ place]
  have hlast : w'.IsLast w.next (Path.place path) := by
    refine ⟨hsits.mpr (.inr ⟨rfl, rfl⟩), fun r hr => ?_⟩
    rcases hsits.mp hr with hr | ⟨rfl, -⟩
    · exact Nat.le_of_not_le fun hle => hfresh.not_sits hle hr
    · exact Nat.le_refl _
  -- Other directories have the engines that they had.
  have hothers {r : EngineRef} {place : List String} (hplace : place ≠ Path.place path) :
      w'.IsLast r place ↔ w.IsLast r place :=
    isLast_congr fun r => hsits.trans (or_iff_left fun hnew => hplace hnew.2)
  constructor
  case locked =>
    intro r place hr
    rcases hsits.mp hr with hr | ⟨-, rfl⟩
    · exact lock_of_openDirectory hopen (h.locked hr)
    · exact hopened.ready.locked
  case persists =>
    intro r e' place hr he'
    by_cases hplace : place = Path.place path
    · subst hplace
      rw [hr.eq hlast, hget, if_pos rfl] at he'
      cases he'
      exact ⟨batches, bs, hpersists⟩
    · have hr' := (hothers hplace).mp hr
      rw [hget, if_neg (hfresh.ne_next_of_sits hr'.1)] at he'
      obtain ⟨batches', bs', hpersists'⟩ := h.persists hr' he'
      refine ⟨batches', bs', hpersists'.encoded, ?_, hpersists'.backing, hpersists'.table⟩
      rw [hopened.others place hplace]
      exact hpersists'.log
  case last =>
    intro r place hr hheld'
    rcases hsits.mp hr with hr | ⟨rfl, rfl⟩
    · have hheld₀ := (hheld r hheld').resolve_right (hfresh.ne_next_of_sits hr)
      refine (hothers ?_).mpr (h.last hr hheld₀)
      -- The directory was free.
      rintro rfl
      obtain ⟨e', he', hplace⟩ := hr
      have hfree := hopened.ready.free
      rw [isDirectoryHeld_iff.mpr ⟨r, e', he', hheld₀, hplace⟩] at hfree
      cases hfree
    · exact hlast

theorem write (h : Latched w) {r : EngineRef} {batch : Batch} {e e' : Engine} {disk : Disk}
    (hheld : w.isEngineHeld r = true) (he : w.engines.get? r = some e)
    (hwrite : e.write batch w.disk = .ok (e', disk)) :
    Latched { w with engines := w.engines.insert r e', disk } := by
  obtain ⟨-, -, hdirectory, -⟩ := table_of_write hwrite
  have hget (r' : EngineRef) :
      (w.engines.insert r e').get? r' = if r' = r then some e' else w.engines.get? r' :=
    SortedMap.get?_insert w.engines r e' r'
  refine h.of_sits (fun {r' place} => ?_) (fun _ hheld => hheld) (fun {place} hlock => ?_) ?_
  · constructor
    · rintro ⟨e₁, he₁, hplace⟩
      rw [hget] at he₁
      split at he₁
      · rename_i heq
        cases he₁
        exact ⟨e, by rw [heq, he], hdirectory.symm.trans hplace⟩
      · exact ⟨e₁, he₁, hplace⟩
    · rintro ⟨e₁, he₁, hplace⟩
      by_cases heq : r' = r
      · rw [heq, he] at he₁
        cases he₁
        exact ⟨e', by rw [hget, if_pos heq], hdirectory.trans hplace⟩
      · exact ⟨e₁, by rw [hget, if_neg heq, he₁], hplace⟩
  · show (disk.content? (lockPlace place)).isSome
    rwa [content?_of_write hwrite fun place' _ => (logPlace_ne_lockPlace place' place).symm]
  · intro r' e₁ place hlast he₁
    rw [hget] at he₁
    split at he₁
    · rename_i heq
      cases he₁
      subst heq
      obtain ⟨batches, bs, hpersists⟩ := h.persists hlast he
      rcases hpersists.write hwrite with ⟨-, rfl, rfl⟩ | ⟨record, -, -, hpersists'⟩
      · exact ⟨batches, bs, hpersists⟩
      · exact ⟨_, _, hpersists'⟩
    · rename_i hne
      obtain ⟨batches, bs, hpersists⟩ := h.persists hlast he₁
      refine ⟨batches, bs, hpersists.encoded, ?_, hpersists.backing, hpersists.table⟩
      show disk.content? (logPlace place) = some bs
      rw [content?_of_write hwrite fun place' hplace' hlogs => ?_]
      · exact hpersists.log
      -- The engine that is held is the last of its directory.
      · rw [logPlace_injective hlogs] at hlast
        exact hne (hlast.eq (h.last ⟨e, he, hplace'⟩ hheld))

theorem shift (h : Latched w) (hshift : Shift w w') : Latched w' := by
  cases hshift with
  | tame htame hhas => exact h.tame htame hhas
  | grow hext => exact h.grow hext
  | make hfresh hnone hdisk hengines hheld => exact h.make hfresh hnone hdisk hengines hheld
  | openDirectory hfresh hopen hengines hheld => exact h.openDirectory hfresh hopen hengines hheld
  | write hheld he hwrite => exact h.write hheld he hwrite

theorem shifts (h : Latched w) (hshifts : Shifts w w') : Latched w' := by
  induction hshifts with
  | refl => exact h
  | tail _ hshift ih => exact ih.shift hshift

/-- A log is written in the place of a log, so that all directories stay. -/
theorem keepsDirectories_shift (h : Latched w) (hshift : Shift w w') :
    Disk.KeepsDirectories w.disk w'.disk := by
  cases hshift with
  | tame htame => rw [htame.disk]; exact .refl _
  | grow hext => exact hext.keepsDirectories
  | make _ _ hdisk => rw [hdisk]; exact .refl _
  | @openDirectory _ path id options networked _ _ hopen =>
      have hgrows := grows_openDirectory path id options networked w.isDirectoryHeld w.disk
      rw [hopen] at hgrows
      exact hgrows.directories
  | @write r _ e _ _ hheld he hwrite =>
      have hlog (place : List String) (hplace : e.directory? = some place) :
          w.disk.content? (logPlace place) ≠ none := by
        obtain ⟨batches, bs, hpersists⟩ := h.persists (h.last ⟨e, he, hplace⟩ hheld) he
        rw [hpersists.log]
        exact Option.some_ne_none bs
      have hgrows : Disk.Grows true w.disk _ := grows_of_write hlog hwrite
      exact hgrows.directories

theorem keepsDirectories (h : Latched w) (hshifts : Shifts w w') :
    Disk.KeepsDirectories w.disk w'.disk := by
  induction hshifts with
  | refl => exact .refl _
  | tail hfront hshift ih => exact ih.trans ((h.shifts hfront).keepsDirectories_shift hshift)

end Latched

/-- Where there are no engines, whatever there is on the disk. -/
theorem latched_of_disk (disk : Disk) : Latched { disk } where
  locked := fun ⟨_, he, _⟩ => nomatch he
  persists hlast := by
    obtain ⟨⟨_, he, _⟩, -⟩ := hlast
    cases he
  last := fun ⟨_, he, _⟩ => nomatch he

/-! ## What is not held any more -/

section Rests

variable {w w' : World} {r : EngineRef} {e : Engine}

/-- An engine that is not held is not held later, and it goes on to hold what it holds. -/
def Rests (r : EngineRef) (e : Engine) (w : World) : Prop :=
  w.isEngineHeld r = false ∧
    ∃ e', w.engines.get? r = some e' ∧ e'.table = e.table ∧ e'.directory? = e.directory?

theorem Shift.rests (h : Shift w w') (hrests : Rests r e w) : Rests r e w' := by
  obtain ⟨hfree, e₁, he₁, htable, hplace⟩ := hrests
  have hold (hfresh : Fresh w) : r ≠ w.next := by
    rintro rfl
    rw [(hfresh _ (Nat.le_refl _)).1] at he₁
    cases he₁
  -- A new engine is none that was there.
  have hmade {e₂ : Engine} (hfresh : Fresh w) (hengines : w'.engines = w.engines.insert w.next e₂)
      (hheld : ∀ r, w'.isEngineHeld r = true → w.isEngineHeld r = true ∨ r = w.next) :
      Rests r e w' := by
    refine ⟨Bool.eq_false_iff.mpr fun hheld' => ?_, e₁, ?_, htable, hplace⟩
    · rw [(hheld r hheld').resolve_right (hold hfresh)] at hfree
      cases hfree
    · rw [hengines, SortedMap.get?_insert, if_neg (hold hfresh), he₁]
  cases h with
  | tame htame hhas =>
      refine ⟨Bool.eq_false_iff.mpr fun hheld => ?_, ?_⟩
      · rw [htame.held hheld] at hfree
        cases hfree
      · obtain ⟨e', he'⟩ := hhas r ⟨e₁, he₁⟩
        obtain ⟨e₀, he₀, htable', hbacking⟩ := htame.engines he'
        rw [he₁] at he₀
        cases he₀
        exact ⟨e', he', htable'.trans htable, by rw [← hplace]; simp only [Engine.directory?, hbacking]⟩
  | grow => exact ⟨hfree, e₁, he₁, htable, hplace⟩
  | make hfresh _ _ hengines hheld => exact hmade hfresh hengines hheld
  | openDirectory hfresh _ hengines hheld => exact hmade hfresh hengines hheld
  | @write r' batch e₂ e₃ disk hheld =>
      refine ⟨hfree, e₁, ?_, htable, hplace⟩
      show (w.engines.insert r' e₃).get? r = some e₁
      rw [SortedMap.get?_insert, if_neg, he₁]
      rintro rfl
      rw [hheld] at hfree
      cases hfree

theorem Shifts.rests (h : Shifts w w') (hrests : Rests r e w) : Rests r e w' := by
  induction h with
  | refl => exact hrests
  | tail _ hshift ih => exact hshift.rests ih

end Rests

end ObjectStore.World
