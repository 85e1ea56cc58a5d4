import Mathlib.Logic.Relation
import ObjectStore.Proofs.Depot.Representation
import ObjectStore.Proofs.Engine.Directory
import ObjectStore.Proofs.World.Held

/-!
# Moves

Whatever callers do, the disk and the engines change by a few kinds of moves only: an engine is made in
memory, a directory is opened or its opening is refused, or an engine that is held applies a batch.
Every other step is tame.

A world is consistent if its tables represent objects, its logs hold whole records that build such
tables, every engine that is held is where its log is, and no directory is held twice. Every move keeps
a world consistent.

Main statement: `Consistent.move`.
-/

namespace ObjectStore.World

open Engine

/-- One change to the disk or the engines. -/
inductive Move (w : World) : World → Prop where
  | tame {w' : World} : Tame w w' → Move w w'
  /-- An engine in memory is made. -/
  | make {w' : World} (id : String) (options : Options) (networked : Bool) :
      w'.disk = w.disk → w'.engines = w.engines.insert w.next { id, options, networked } →
      (∀ r, w'.isEngineHeld r = true → w.isEngineHeld r = true ∨ r = w.next) →
      Move w w'
  /-- A directory is opened. -/
  | openDirectory {w' : World} {path id : String} {options : Options} {networked : Bool}
      {e : Engine} :
      Engine.openDirectory path id options networked w.isDirectoryHeld w.disk = (.ok e, w'.disk) →
      w'.engines = w.engines.insert w.next e →
      (∀ r, w'.isEngineHeld r = true → w.isEngineHeld r = true ∨ r = w.next) →
      Move w w'
  /-- The opening of a directory is refused. -/
  | refuse {w' : World} {path id : String} {options : Options} {networked : Bool}
      {err : StorageError} :
      Engine.openDirectory path id options networked w.isDirectoryHeld w.disk =
        (.error err, w'.disk) →
      w'.engines = w.engines →
      (∀ r, w'.isEngineHeld r = true → w.isEngineHeld r = true) →
      Move w w'
  /-- An engine that is held applies a batch, and its table still represents objects. -/
  | write {handle : Handle} {batch : Batch} {e e' : Engine} {disk : Disk} :
      w.isEngineHeld handle.engine = true → w.engines.get? handle.engine = some e →
      e.write batch w.disk = .ok (e', disk) → e'.table.Represented →
      Move w { w with engines := w.engines.insert handle.engine e', disk }

/-- Any number of moves. -/
abbrev Moves : World → World → Prop :=
  Relation.ReflTransGen Move

theorem Tame.moves {w w' : World} (h : Tame w w') : Moves w w' :=
  .single (.tame h)

/-- The log at every place is locked and holds whole records, and these build a table of objects. -/
def LogsRepresent (d : Disk) : Prop :=
  ∀ place bs, d.content? (logPlace place) = some bs →
    (d.content? (lockPlace place)).isSome ∧
      ∃ batches, Log.encodeAll batches = .ok bs ∧ (Log.replay batches).Represented

/-- What every move preserves. -/
structure Consistent (w : World) : Prop where
  represented : ∀ {r e}, w.engines.get? r = some e → e.table.Represented
  logs : LogsRepresent w.disk
  /-- Engines that are held persist their batches. -/
  persists : ∀ {r e place}, w.engines.get? r = some e → w.isEngineHeld r = true →
    e.directory? = some place → ∃ batches bs, e.Persists w.disk place batches bs
  /-- No directory is held twice. -/
  exclusive : ∀ {r r' e e' place}, w.engines.get? r = some e → w.engines.get? r' = some e' →
    w.isEngineHeld r = true → w.isEngineHeld r' = true →
    e.directory? = some place → e'.directory? = some place → r = r'

/-! ## Disks and logs -/

theorem LogsRepresent.represented_replay {d : Disk} (h : LogsRepresent d) {place : List String}
    {bs : Bytes} {batches : List Batch} (hlog : d.content? (logPlace place) = some bs)
    (hbatches : Log.encodeAll batches = .ok bs) : (Log.replay batches).Represented := by
  obtain ⟨-, batches', hbatches', hrepresented⟩ := h place bs hlog
  rw [Log.encodeAll_injective hbatches hbatches']
  exact hrepresented

/-- A log may be added to a disk together with its lock as long as it is empty. -/
theorem LogsRepresent.extends {d d' : Disk} (h : LogsRepresent d) (hext : Disk.Extends d d')
    (hlock : ∀ p, d'.content? (logPlace p) = d.content? (logPlace p) ∨
      (d'.content? (lockPlace p)).isSome) : LogsRepresent d' := by
  intro place bs hbs
  rcases hext.of_content?_eq_some hbs with hold | ⟨hnone, rfl⟩
  · obtain ⟨hlocked, hbatches⟩ := h place bs hold
    obtain ⟨lock, hlock⟩ := Option.isSome_iff_exists.mp hlocked
    exact ⟨by rw [hext.content?_of_some hlock]; rfl, hbatches⟩
  · refine ⟨?_, [], rfl, Table.represented_empty⟩
    rcases hlock place with hsame | hlocked
    · rw [hbs, hnone] at hsame
      cases hsame
    · exact hlocked

/-- In a consistent world a directory that is opened gives an engine that persists its batches, and a
refusal adds at most empty logs. -/
theorem openDirectory_of_logsRepresent {path id : String} {options : Options} {networked : Bool}
    {held : List String → Bool} {d d' : Disk} (h : LogsRepresent d) {opened : Except StorageError Engine}
    (hopen : Engine.openDirectory path id options networked held d = (opened, d')) :
    Disk.Extends d d' ∧ LogsRepresent d' ∧
      ∀ e, opened = .ok e →
        ∃ place batches bs, held place = false ∧ e.Persists d' place batches bs := by
  rcases openDirectory_cases path id options networked held d with
    ⟨err, d₁, hfailed, hext, hlogs⟩ |
      ⟨place, content, d₁, hrecover, hheld, hext, -, hlog, hlock, hother⟩
  · rw [hopen] at hfailed
    cases hfailed
    refine ⟨hext, h.extends hext fun p => .inl (hlogs p), fun e he => ?_⟩
    cases he
  · have hlogs : LogsRepresent d₁ := by
      refine h.extends hext fun p => ?_
      by_cases hp : p = place
      · subst hp
        exact .inr hlock
      · exact .inl (hother p hp)
    obtain ⟨-, batches, hbatches, -⟩ := hlogs place content hlog
    rw [hopen] at hrecover
    -- The log holds whole records, so that the recovery is no refusal and cuts nothing off.
    have hwhole := recover_of_encodeAll path id options networked place hbatches d₁
    rw [hwhole] at hrecover
    cases hrecover
    refine ⟨hext, hlogs, fun e he => ?_⟩
    cases he
    have hpersists := persists_of_recover path id options networked hbatches hlog hwhole
    exact ⟨place, batches, content, hheld, hpersists.1⟩

/-! ## Every move keeps a world consistent -/

namespace Consistent

variable {w w' : World}

theorem tame (h : Consistent w) (htame : Tame w w') : Consistent w' where
  represented hr := by
    obtain ⟨e, hr, htable, -⟩ := htame.engines hr
    rw [htable]
    exact h.represented hr
  logs := htame.disk ▸ h.logs
  persists {r e' place} hr hheld hplace := by
    obtain ⟨e, hr, htable, hbacking⟩ := htame.engines hr
    have hplace' : e.directory? = some place := by
      rw [← hplace]
      simp only [Engine.directory?, hbacking]
    obtain ⟨batches, bs, hpersists⟩ := h.persists hr (htame.held hheld) hplace'
    refine ⟨batches, bs, hpersists.encoded, ?_, ?_, ?_⟩
    · rw [htame.disk]
      exact hpersists.log
    · rw [hbacking]
      exact hpersists.backing
    · rw [htable]
      exact hpersists.table
  exclusive {r r' e₁ e₂ place} hr hr' hheld hheld' hplace hplace' := by
    obtain ⟨e, hr, -, hbacking⟩ := htame.engines hr
    obtain ⟨e', hr', -, hbacking'⟩ := htame.engines hr'
    have hsame : e.directory? = some place := by
      rw [← hplace]
      simp only [Engine.directory?, hbacking]
    have hsame' : e'.directory? = some place := by
      rw [← hplace']
      simp only [Engine.directory?, hbacking']
    exact h.exclusive hr hr' (htame.held hheld) (htame.held hheld') hsame hsame'

/-- A new engine may come to a consistent world if its directory is not held, and only this engine is
held that was not held before. -/
theorem addEngine (h : Consistent w) {e : Engine} (hext : Disk.Extends w.disk w'.disk)
    (hlogs : LogsRepresent w'.disk) (hengines : w'.engines = w.engines.insert w.next e)
    (hheld : ∀ r, w'.isEngineHeld r = true → w.isEngineHeld r = true ∨ r = w.next)
    (hrepresented : e.table.Represented)
    (hdirectory : ∀ place, e.directory? = some place →
      w.isDirectoryHeld place = false ∧ ∃ batches bs, e.Persists w'.disk place batches bs) :
    Consistent w' := by
  have hget (r : EngineRef) :
      w'.engines.get? r = if r = w.next then some e else w.engines.get? r := by
    rw [hengines]
    exact SortedMap.get?_insert w.engines w.next e r
  -- Every engine that is held is the new one or was held before.
  have hcases {r : EngineRef} {e' : Engine} (hr : w'.engines.get? r = some e')
      (hheld' : w'.isEngineHeld r = true) :
      r = w.next ∧ e' = e ∨ r ≠ w.next ∧ w.engines.get? r = some e' ∧ w.isEngineHeld r = true := by
    rw [hget] at hr
    split at hr
    · rename_i heq
      cases hr
      exact .inl ⟨heq, rfl⟩
    · rename_i hne
      exact .inr ⟨hne, hr, (hheld r hheld').resolve_right hne⟩
  -- The directory of the new engine was free, so that no other engine has it open.
  have hclash {r : EngineRef} {e' : Engine} {place : List String}
      (hr : w.engines.get? r = some e') (hr' : w.isEngineHeld r = true)
      (hplace' : e'.directory? = some place) (hplace : e.directory? = some place) : False := by
    have hfree := (hdirectory place hplace).1
    rw [isDirectoryHeld_iff.mpr ⟨r, e', hr, hr', hplace'⟩] at hfree
    cases hfree
  constructor
  case represented =>
    intro r e' hr
    rw [hget] at hr
    split at hr
    · cases hr
      exact hrepresented
    · exact h.represented hr
  case logs => exact hlogs
  case persists =>
    intro r e' place hr hheld' hplace
    rcases hcases hr hheld' with ⟨-, rfl⟩ | ⟨-, hr, hheld'⟩
    · exact (hdirectory place hplace).2
    · obtain ⟨batches, bs, hpersists⟩ := h.persists hr hheld' hplace
      exact ⟨batches, bs, hpersists.extends hext⟩
  case exclusive =>
    intro r₁ r₂ e₁ e₂ place hr₁ hr₂ hheld₁ hheld₂ hplace₁ hplace₂
    rcases hcases hr₁ hheld₁ with ⟨rfl, rfl⟩ | ⟨-, hr₁, hheld₁⟩
    · rcases hcases hr₂ hheld₂ with ⟨rfl, -⟩ | ⟨-, hr₂, hheld₂⟩
      · rfl
      · exact (hclash hr₂ hheld₂ hplace₂ hplace₁).elim
    · rcases hcases hr₂ hheld₂ with ⟨rfl, rfl⟩ | ⟨-, hr₂, hheld₂⟩
      · exact (hclash hr₁ hheld₁ hplace₁ hplace₂).elim
      · exact h.exclusive hr₁ hr₂ hheld₁ hheld₂ hplace₁ hplace₂

/-- An engine that is held may apply a batch if its table still represents objects. -/
theorem write (h : Consistent w) {r : EngineRef} {batch : Batch} {e e' : Engine} {disk : Disk}
    (hheld : w.isEngineHeld r = true) (hr : w.engines.get? r = some e)
    (hwrite : e.write batch w.disk = .ok (e', disk)) (hrepresented : e'.table.Represented) :
    Consistent { w with engines := w.engines.insert r e', disk } := by
  obtain ⟨-, -, hdirectory, -⟩ := table_of_write hwrite
  have hget (r' : EngineRef) :
      (w.engines.insert r e').get? r' = if r' = r then some e' else w.engines.get? r' :=
    SortedMap.get?_insert w.engines r e' r'
  -- The engine goes on persisting its batches, and no other log changes.
  have hself {place : List String} (hplace : e.directory? = some place) :
      ∃ batches bs, e'.Persists disk place batches bs := by
    obtain ⟨batches, bs, hpersists⟩ := h.persists hr hheld hplace
    rcases hpersists.write hwrite with ⟨-, rfl, rfl⟩ | ⟨record, -, -, hpersists'⟩
    · exact ⟨batches, bs, hpersists⟩
    · exact ⟨_, _, hpersists'⟩
  have hother {p : List String} (hp : e.directory? ≠ some p) :
      disk.content? (logPlace p) = w.disk.content? (logPlace p) := by
    refine content?_of_write hwrite fun place hplace heq => hp ?_
    rw [hplace, logPlace_injective heq]
  have hlock (p : List String) : disk.content? (lockPlace p) = w.disk.content? (lockPlace p) :=
    content?_of_write hwrite fun place _ => (logPlace_ne_lockPlace place p).symm
  constructor
  case represented =>
    intro r' e'' hr'
    rw [hget] at hr'
    split at hr'
    · cases hr'
      exact hrepresented
    · exact h.represented hr'
  case logs =>
    intro p bs hbs
    rw [hlock]
    by_cases hp : e.directory? = some p
    -- The engine goes on persisting its batches, and these build the new table.
    · obtain ⟨batches, bs', hpersists⟩ := hself hp
      obtain ⟨batches₀, bs₀, hpersists₀⟩ := h.persists hr hheld hp
      rw [hpersists.log] at hbs
      cases hbs
      refine ⟨(h.logs p bs₀ hpersists₀.log).1, batches, hpersists.encoded, ?_⟩
      rw [← hpersists.table]
      exact hrepresented
    · rw [hother hp] at hbs
      exact h.logs p bs hbs
  case persists =>
    intro r' e'' place hr' hheld' hplace
    rw [hget] at hr'
    split at hr'
    · cases hr'
      rw [hdirectory] at hplace
      exact hself hplace
    · rename_i hne
      obtain ⟨batches, bs, hpersists⟩ := h.persists hr' hheld' hplace
      refine ⟨batches, bs, hpersists.encoded, ?_, hpersists.backing, hpersists.table⟩
      -- Another engine that is held has another directory.
      show disk.content? (logPlace place) = some bs
      rw [hother fun heq => hne (h.exclusive hr' hr hheld' hheld hplace heq)]
      exact hpersists.log
  case exclusive =>
    -- Every engine has the directory that it had before.
    have hbefore {r' : EngineRef} {e'' : Engine} {place : List String}
        (hr' : (w.engines.insert r e').get? r' = some e'') (hplace : e''.directory? = some place) :
        ∃ e₀, w.engines.get? r' = some e₀ ∧ e₀.directory? = some place := by
      rw [hget] at hr'
      split at hr'
      · rename_i heq
        cases hr'
        exact ⟨e, by rw [heq, hr], by rw [← hdirectory, hplace]⟩
      · exact ⟨e'', hr', hplace⟩
    intro r₁ r₂ e₁ e₂ place hr₁ hr₂ hheld₁ hheld₂ hplace₁ hplace₂
    obtain ⟨e₁', hr₁', hplace₁'⟩ := hbefore hr₁ hplace₁
    obtain ⟨e₂', hr₂', hplace₂'⟩ := hbefore hr₂ hplace₂
    exact h.exclusive hr₁' hr₂' hheld₁ hheld₂ hplace₁' hplace₂'

/-- Every move keeps a world consistent. -/
theorem move (h : Consistent w) (hmove : Move w w') : Consistent w' := by
  cases hmove with
  | tame htame => exact h.tame htame
  | make id options networked hdisk hengines hheld =>
      have hext : Disk.Extends w.disk w'.disk := by
        rw [hdisk]
        exact .refl _
      have hlogs : LogsRepresent w'.disk := hdisk ▸ h.logs
      refine h.addEngine hext hlogs hengines hheld Table.represented_empty fun place hplace => ?_
      cases hplace
  | openDirectory hopen hengines hheld =>
      obtain ⟨hext, hlogs, hopened⟩ := openDirectory_of_logsRepresent h.logs hopen
      obtain ⟨place, batches, bs, hfree, hpersists⟩ := hopened _ rfl
      refine h.addEngine hext hlogs hengines hheld ?_ fun place' hplace' => ?_
      · rw [hpersists.table]
        exact hlogs.represented_replay hpersists.log hpersists.encoded
      · rw [hpersists.directory?] at hplace'
        cases hplace'
        exact ⟨hfree, batches, bs, hpersists⟩
  | refuse hopen hengines hheld =>
      obtain ⟨hext, hlogs, -⟩ := openDirectory_of_logsRepresent h.logs hopen
      constructor
      case represented =>
        intro r e hr
        rw [hengines] at hr
        exact h.represented hr
      case logs => exact hlogs
      case persists =>
        intro r e place hr hheld' hplace
        rw [hengines] at hr
        obtain ⟨batches, bs, hpersists⟩ := h.persists hr (hheld r hheld') hplace
        exact ⟨batches, bs, hpersists.extends hext⟩
      case exclusive =>
        intro r r' e e' place hr hr' hheld₁ hheld₂ hplace hplace'
        rw [hengines] at hr hr'
        exact h.exclusive hr hr' (hheld r hheld₁) (hheld r' hheld₂) hplace hplace'
  | write hheld hr hwrite hrepresented => exact h.write hheld hr hwrite hrepresented

theorem moves (h : Consistent w) (hmoves : Moves w w') : Consistent w' := by
  induction hmoves with
  | refl => exact h
  | tail _ hmove ih => exact ih.move hmove

end Consistent

/-- A disk without logs, and nothing else, is where everything starts. -/
theorem consistent_of_disk {d : Disk} (h : ∀ place, d.content? (logPlace place) = none) :
    Consistent { disk := d } where
  represented hr := by cases hr
  logs place bs hbs := by
    rw [h place] at hbs
    cases hbs
  persists hr := by cases hr
  exclusive hr := by cases hr

end ObjectStore.World
