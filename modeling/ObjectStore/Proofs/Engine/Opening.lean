import ObjectStore.Proofs.Engine.Canonical
import ObjectStore.Proofs.Engine.Ways

/-!
# When a directory can be opened

An opening may be refused for many reasons, and it may leave directories and empty files behind also
then. What other stores do to a disk in the meantime does not change the answer: a directory that was
opened once is opened again (`Ready`), and one that was refused is refused again (`Barred`). The log that
is read may hold any bytes; what it builds is the same before and after the opening.

Main statements: `opened_of_openDirectory`, `barred_of_openDirectory`, `Ready.openDirectory` and
`Barred.openDirectory`.
-/

namespace ObjectStore

namespace Disk

variable {d d' : Disk} {place : List String}

/-! ## How a disk grows -/

/-- Directories stay directories and files stay files, and a directory is new only where directories are
made. -/
structure Grows (making : Bool) (d d' : Disk) : Prop where
  directories : KeepsDirectories d d'
  files : ∀ {p}, d'.content? p = none → d.content? p = none
  made : making = false → KeepsDirectories d' d

namespace Grows

variable {making : Bool} {d'' : Disk}

theorem refl (making : Bool) (d : Disk) : Grows making d d :=
  ⟨.refl d, fun h => h, fun _ => .refl d⟩

theorem trans (h : Grows making d d') (h' : Grows making d' d'') : Grows making d d'' where
  directories := h.directories.trans h'.directories
  files hp := h.files (h'.files hp)
  made hmaking := (h'.made hmaking).trans (h.made hmaking)

/-- A file may be put where no directory is. -/
theorem set_file (hnode : d.node? place ≠ some .directory) (bs : Bytes) :
    Grows making d (d.set place (.file bs)) := by
  have hroot : place ≠ [] := by
    rintro rfl
    exact hnode rfl
  have hother {p : List String} (hp : p ≠ place) (node : Node) :
      (d.set place (.file bs)).node? p = some node ↔ d.node? p = some node := by
    simp [node?_set, hp]
  constructor
  case directories =>
    intro p hp
    have hne : p ≠ place := by
      rintro rfl
      exact hnode hp
    exact (hother hne _).mpr hp
  case files =>
    intro p hp
    by_cases heq : p = place
    · rw [heq, content?_set_self d hroot] at hp
      cases hp
    · rwa [content?_set_of_ne d heq] at hp
  case made =>
    intro _ p hp
    have hne : p ≠ place := by
      rintro rfl
      simp [node?_set, hroot] at hp
    exact (hother hne _).mp hp

theorem openFile? {bs : Bytes} (h : d.openFile? place = some (bs, d')) : Grows making d d' := by
  unfold Disk.openFile? at h
  split at h
  · cases h
  · cases h
    exact refl making d
  · rename_i hnone
    cases h
    exact set_file (by simp [hnone]) []

theorem truncate (d : Disk) (place : List String) (n : Nat) :
    Grows making d (d.truncate place n) := by
  unfold Disk.truncate
  split
  · rename_i content hcontent
    rw [content?_eq_some_iff] at hcontent
    exact set_file (by simp [hcontent]) _
  · exact refl making d

theorem writeAt (hnode : d.node? place ≠ some .directory) (offset : Nat) (bs : Bytes) :
    Grows making d (d.writeAt place offset bs) :=
  set_file hnode _

end Grows

theorem Extends.grows (h : Extends d d') : Grows true d d' where
  directories := h.keepsDirectories
  files {p} hp := by
    cases hold : d.content? p with
    | none => rfl
    | some bs =>
        rw [h.content?_of_some hold] at hp
        cases hp
  made hmaking := by cases hmaking

/-! ## Changes to files -/

theorem grows_makeFirst (ways : List (List String)) (d : Disk) :
    Grows true d (d.makeFirst ways).2 :=
  (extends_makeFirst ways d).1.grows

theorem grows_write (d : Disk) (path : String) (bs : Bytes) (append : Bool) :
    Grows true d (d.write path bs append).2 := by
  have habove := grows_makeFirst (Path.above path) d
  unfold Disk.write
  split
  · split
    · rename_i hmake
      rwa [hmake] at habove
    · rename_i hmake
      rw [hmake] at habove
      split
      · exact habove
      · split
        · exact habove
        · rename_i hnode
          exact habove.trans (.set_file (by simp [hnode]) _)
        · rename_i hnode
          split
          · exact habove
          · exact habove.trans (.set_file (by simp [hnode]) _)
  · exact .refl true d

/-- A file that is changed is one afterwards. -/
theorem grows_edit? {path : String} {f : Bytes → Option Bytes} (h : d.edit? path f = some d') :
    Grows true d d' := by
  unfold edit? at h
  split at h
  · rename_i place content hfind
    obtain ⟨content', -, rfl⟩ := Option.map_eq_some_iff.mp h
    have hnode := (follow_of_find hfind).2.2
    exact .set_file (by simp [hnode]) _
  · cases h

end Disk

namespace Engine

open Disk

variable {path id : String} {options : Options} {networked : Bool} {held : List String → Bool}
  {d d' : Disk}

/-! ## Ways to the directory of a store -/

/-- The path leads to a directory, or directories may be made all the way. -/
def Leads (path : String) (options : Options) (d : Disk) : Prop :=
  d.find path = .ok (Path.place path, .directory) ∨
    options.createIfMissing = true ∧ Path.isUsable path = true ∧ d.Clear [] (Path.names path)

/-- A path that leads to a directory later on can be made to lead there before. -/
theorem Leads.of_grows (h : Leads path options d') (hgrows : Grows options.createIfMissing d d') :
    Leads path options d := by
  rcases h with hfind | ⟨hcreate, husable, hclear⟩
  · cases hcreate : options.createIfMissing with
    | false => exact .inl ((hgrows.made hcreate).find hfind)
    | true =>
        obtain ⟨husable, hfollow, hnode⟩ := follow_of_find hfind
        exact .inr ⟨hcreate, husable, (clear_of_foldlM hfollow hnode).mono fun _ => hgrows.files⟩
  · exact .inr ⟨hcreate, husable, hclear.mono fun _ => hgrows.files⟩

theorem prepareDirectory_eq_ok_iff (id : String) (options : Options) (d : Disk) {name : String}
    {front : List String} (hnames : Path.names path = front ++ [name]) (hname : name ≠ ".") :
    (∃ place, (prepareDirectory path id options d).1 = .ok place) ↔ Leads path options d := by
  have hmake := makeDirectories_eq_ok_iff (d := d) hnames hname
  unfold prepareDirectory Leads
  split
  · rename_i place hfind
    rw [place_of_find hfind] at hfind
    exact iff_of_true ⟨place, rfl⟩ (.inl hfind)
  · rename_i place bs hfind
    -- A file at the end of the way is in the way.
    refine iff_of_false (by simp) ?_
    rintro (hfind' | ⟨-, -, hclear⟩)
    · rw [hfind] at hfind'
      cases hfind'
    · obtain ⟨-, hfollow, hnode⟩ := follow_of_find hfind
      unfold follow at hfollow
      rcases foldlM_of_clear hclear with ⟨place', hfollow', hnone⟩ | hmissing
      · rw [hfollow] at hfollow'
        cases hfollow'
        rw [content?_eq_some_iff.mpr hnode] at hnone
        cases hnone
      · rw [hfollow] at hmissing
        cases hmissing
  · rename_i err hfind
    rw [hfind]
    cases options.createIfMissing with
    | false => simp
    | true =>
        simp only [if_true, reduceCtorEq, false_or, true_and]
        rw [← hmake]
        rcases d.makeDirectories path with ⟨err | place, d'⟩
        · simp
        · simp

theorem grows_prepareDirectory (path id : String) (options : Options) (d : Disk) :
    Grows options.createIfMissing d (prepareDirectory path id options d).2 := by
  cases hcreate : options.createIfMissing with
  | true => exact (extends_prepareDirectory path id options d).1.grows
  | false =>
      have hsame : (prepareDirectory path id options d).2 = d := by
        unfold prepareDirectory
        split
        · rfl
        · rfl
        · simp [hcreate]
      rw [hsame]
      exact .refl _ d

theorem grows_recover (path id : String) (place : List String) (options : Options)
    (networked : Bool) (content : Bytes) (d : Disk) {making : Bool} :
    Grows making d (recover path id place options networked content d).2 := by
  unfold recover
  simp only
  split
  · exact .refl making d
  · split
    · exact .truncate d _ _
    · exact .refl making d

/-- A batch is written to a log that is there, so that nothing else on the disk changes. -/
theorem grows_of_write {e e' : Engine} {batch : Batch} {making : Bool}
    (hlog : ∀ place, e.directory? = some place → d.content? (logPlace place) ≠ none)
    (h : e.write batch d = .ok (e', d')) : Grows making d d' := by
  rcases disk_of_write h with rfl | ⟨place, length, record, hbacking, -, rfl⟩
  · exact .refl making d'
  · refine .writeAt (fun hnode => ?_) length record
    exact hlog place (by simp [directory?, hbacking]) (content?_of_directory hnode)

/-! ## Openings that are granted and refused -/

/-- The directory of a path is there with its lock and a log of whole records, and nobody has it open. -/
structure Ready (path : String) (held : List String → Bool) (d : Disk) : Prop where
  found : d.find path = .ok (Path.place path, .directory)
  locked : (d.content? (lockPlace (Path.place path))).isSome
  logged : ∃ batches bs, Log.encodeAll batches = .ok bs ∧
    d.content? (logPlace (Path.place path)) = some bs
  free : held (Path.place path) = false

/-- Why the directory of a path cannot be opened. -/
inductive Barred (path : String) (options : Options) (held : List String → Bool) (d : Disk) : Prop
  /-- The path does not lead to a directory, and none can or may be made. -/
  | way : ¬ Leads path options d → Barred path options held d
  /-- A directory is in the place of the lock. -/
  | lock : d.node? (lockPlace (Path.place path)) = some .directory → Barred path options held d
  | held : held (Path.place path) = true → Barred path options held d
  /-- A directory is in the place of the log. -/
  | log : d.node? (logPlace (Path.place path)) = some .directory → Barred path options held d
  /-- The log is damaged, and its damaged end may not be dropped. -/
  | damaged {bs : Bytes} : options.removeCorrupted = false →
      d.content? (logPlace (Path.place path)) = some bs → (Log.scan bs).damage ≠ none →
      Barred path options held d

theorem grows_openDirectory (path id : String) (options : Options) (networked : Bool)
    (held : List String → Bool) (d : Disk) :
    Grows options.createIfMissing d (openDirectory path id options networked held d).2 := by
  have hprepare := grows_prepareDirectory path id options d
  unfold openDirectory
  rcases hprepared : prepareDirectory path id options d with ⟨err | place, d₁⟩
  · rw [hprepared] at hprepare
    exact hprepare
  · rw [hprepared] at hprepare
    simp only
    split
    · exact hprepare
    · rename_i lock d₂ hlock
      have hlocked : Grows options.createIfMissing d d₂ := hprepare.trans (.openFile? hlock)
      split
      · exact hlocked
      · split
        · exact hlocked
        · rename_i content d₃ hlog
          exact (hlocked.trans (.openFile? hlog)).trans
            (grows_recover path id place options networked content d₃)

/-- What a recovery that is granted leaves: the engine persists the records that were whole, and these
build what the log has built before. -/
theorem persists_of_recover_eq_ok {place : List String} {content : Bytes} {e : Engine}
    (hlog : d.content? (logPlace place) = some content)
    (h : recover path id place options networked content d = (.ok e, d')) :
    (∃ batches bs, e.Persists d' place batches bs) ∧ logTable d' place = logTable d place ∧
      KeepsDirectories d d' ∧ ∀ p, p ≠ logPlace place → d'.content? p = d.content? p := by
  have hengine := engine_of_recover path id options networked h
  obtain ⟨front, rest, hall, hcontent, hlength, hdamage⟩ := Log.encodeAll_scan content
  have hfront : content.take (Log.scan content).validLength = front := by
    rw [hlength, hcontent, List.take_left' rfl]
  have hpersists (hd' : d'.content? (logPlace place) = some front) :
      e.Persists d' place (Log.scan content).batches front := by
    rw [hengine, hlength]
    exact ⟨hall, hd', rfl, rfl⟩
  have htable (hd' : d'.content? (logPlace place) = some front) :
      logTable d' place = logTable d place := by
    rw [(hpersists hd').logTable_eq, hengine, logTable, hlog]
    rfl
  unfold recover at h
  simp only at h
  split at h
  -- A log without damage is kept as it is.
  · rename_i hnone
    cases h
    have hwhole : d.content? (logPlace place) = some front := by
      rw [hlog, hcontent, hdamage.mp hnone, List.append_nil]
    exact ⟨⟨_, _, hpersists hwhole⟩, rfl, .refl d, fun _ _ => rfl⟩
  · split at h
    -- A log with damage is cut back to its whole records.
    · cases h
      have hcut := content?_truncate_self (logPlace_ne_nil place) hlog (Log.scan content).validLength
      rw [hfront] at hcut
      exact ⟨⟨_, _, hpersists hcut⟩, htable hcut, .truncate d _ _,
        fun p hp => content?_truncate_of_ne d hp _⟩
    · cases h

/-- What an opening that is granted leaves behind. -/
structure Opened (path : String) (held : List String → Bool) (e : Engine) (d d' : Disk) : Prop where
  ready : Ready path held d'
  persists : ∃ batches bs, e.Persists d' (Path.place path) batches bs
  /-- Logs build what they have built before. -/
  tables : ∀ place, logTable d' place = logTable d place
  /-- No other log is touched. -/
  others : ∀ place, place ≠ Path.place path →
    d'.content? (logPlace place) = d.content? (logPlace place)

theorem opened_of_openDirectory {e : Engine}
    (h : openDirectory path id options networked held d = (.ok e, d')) :
    Opened path held e d d' := by
  rcases openDirectory_cases path id options networked held d with
    ⟨err, d₁, hfailed, -⟩ | ⟨place, content, d₁, hrecover, hfree, hext, hfind, hlog, hlock, hothers⟩
  · rw [h] at hfailed
    cases hfailed
  · rw [h] at hrecover
    obtain ⟨hpersists, htable, hkeeps, hfiles⟩ := persists_of_recover_eq_ok hlog hrecover.symm
    have hplace := place_of_find hfind
    subst hplace
    constructor
    case ready =>
      obtain ⟨batches, bs, hp⟩ := hpersists
      refine ⟨hkeeps.find hfind, ?_, ⟨batches, bs, hp.encoded, hp.log⟩, hfree⟩
      rwa [hfiles _ (logPlace_ne_lockPlace _ _).symm]
    case persists => exact hpersists
    case tables =>
      intro place
      rw [← logTable_of_extends hext place]
      by_cases heq : place = Path.place path
      · rw [heq]
        exact htable
      · exact logTable_congr (hfiles _ fun hlogs => heq (logPlace_injective hlogs))
    case others =>
      intro place hne
      rw [hfiles _ fun hlogs => hne (logPlace_injective hlogs)]
      exact hothers place hne

/-- An opening that is refused leaves all logs as they are. -/
theorem content?_of_openDirectory_error {err : StorageError}
    (h : openDirectory path id options networked held d = (.error err, d')) (place : List String) :
    d'.content? (logPlace place) = d.content? (logPlace place) := by
  rcases openDirectory_cases path id options networked held d with
    ⟨err', d₁, hfailed, -, hlogs⟩ | ⟨place', content, d₁, hrecover, -, hext, -, hlog, -, hothers⟩
  · rw [h] at hfailed
    cases hfailed
    exact hlogs place
  · rw [h] at hrecover
    unfold recover at hrecover
    simp only at hrecover
    split at hrecover
    · cases hrecover
    · rename_i damage hdamage
      split at hrecover
      · cases hrecover
      · cases hrecover
        by_cases heq : place = place'
        · rw [heq, hlog]
          -- A log that is damaged was there before, because a new one is empty.
          rcases hext.of_content?_eq_some hlog with hold | ⟨-, rfl⟩
          · exact hold.symm
          · simp [Log.scan] at hdamage
        · exact hothers place heq

/-- A file cannot be opened if and only if a directory is in its place. -/
theorem openFile?_eq_none_iff {place : List String} :
    d.openFile? place = none ↔ d.node? place = some .directory := by
  unfold Disk.openFile?
  split
  · rename_i hnode
    simp [hnode]
  · rename_i hnode
    simp [hnode]
  · rename_i hnode
    simp [hnode]

/-- What was refused is barred from then on. -/
theorem barred_of_openDirectory {name : String} {front : List String}
    (hnames : Path.names path = front ++ [name]) (hname : name ≠ ".") {err : StorageError}
    (h : openDirectory path id options networked held d = (.error err, d')) :
    Barred path options held d' := by
  have hprepare := prepareDirectory_eq_ok_iff id options d hnames hname
  have hgrows := grows_prepareDirectory path id options d
  obtain ⟨-, -, hfind⟩ := extends_prepareDirectory path id options d
  unfold openDirectory at h
  rcases hprepared : prepareDirectory path id options d with ⟨err' | place, d₁⟩
  · rw [hprepared] at h hprepare hgrows
    cases h
    refine .way fun hleads => ?_
    obtain ⟨place, hplace⟩ := hprepare.mpr (hleads.of_grows hgrows)
    cases hplace
  · rw [hprepared] at h hfind
    have hplace := place_of_find (hfind place rfl)
    subst hplace
    simp only at h
    split at h
    · rename_i hlock
      cases h
      exact .lock (openFile?_eq_none_iff.mp hlock)
    · split at h
      · rename_i hheld
        cases h
        exact .held hheld
      · split at h
        · rename_i hlog
          cases h
          exact .log (openFile?_eq_none_iff.mp hlog)
        · rename_i content d₃ hlog
          obtain ⟨-, hcontent, -⟩ := extends_openFile? hlog
          unfold recover at h
          simp only at h
          split at h
          · cases h
          · rename_i damage hdamage
            split at h
            · cases h
            · rename_i hremove
              cases h
              exact .damaged (by simpa using hremove) hcontent (by simp [hdamage])

/-- A directory that is ready is opened. -/
theorem Ready.openDirectory (h : Ready path held d) (id : String) (options : Options)
    (networked : Bool) : ∃ e d', openDirectory path id options networked held d = (.ok e, d') := by
  obtain ⟨batches, bs, hencoded, hlog⟩ := h.logged
  obtain ⟨lock, hlock⟩ := Option.isSome_iff_exists.mp h.locked
  rw [openDirectory_of_find path id options networked held h.found hlock hlog h.free,
    recover_of_encodeAll path id options networked _ hencoded]
  exact ⟨_, _, rfl⟩

/-- A directory that is barred is refused. -/
theorem Barred.openDirectory (h : Barred path options held d) (id : String) (networked : Bool)
    {opened : Except StorageError Engine}
    (hopen : openDirectory path id options networked held d = (opened, d')) :
    ∃ err, opened = .error err := by
  cases opened with
  | error err => exact ⟨err, rfl⟩
  | ok e =>
      have hready := (opened_of_openDirectory hopen).ready
      have hgrows := grows_openDirectory path id options networked held d
      rw [hopen] at hgrows
      -- An opening that was granted leaves nothing that could have barred it.
      have hno (p : List String) (hnode : d.node? p = some .directory)
          (hfile : (d'.content? p).isSome) : False := by
        have hnode' : d'.node? p = some .directory := hgrows.directories p hnode
        rw [content?_of_directory hnode'] at hfile
        cases hfile
      cases h with
      | way hway => exact absurd (Leads.of_grows (.inl hready.found) hgrows) hway
      | lock hlock => exact (hno _ hlock hready.locked).elim
      | held hheld =>
          rw [hready.free] at hheld
          cases hheld
      | log hlog =>
          obtain ⟨-, bs, -, hbs⟩ := hready.logged
          exact (hno _ hlog (by simp [hbs])).elim
      | damaged hremove hlog hdamage =>
          rcases openDirectory_cases path id options networked held d with
            ⟨err, d₁, hfailed, -⟩ | ⟨place, content, d₁, hrecover, -, hext, hfind, hcontent, -⟩
          · rw [hopen] at hfailed
            cases hfailed
          · rw [place_of_find hfind] at hcontent
            rw [hext.content?_of_some hlog] at hcontent
            cases hcontent
            rw [hopen] at hrecover
            unfold recover at hrecover
            simp only [hremove] at hrecover
            split at hrecover
            · rename_i hnone
              exact absurd hnone hdamage
            · cases hrecover

section Grown

variable {held' : List String → Bool} (hheld : held' (Path.place path) = held (Path.place path))
  (hgrows : Grows options.createIfMissing d d')

include hheld hgrows

/-- What is ready stays ready as long as its log holds whole records. -/
theorem Ready.of_grows (h : Ready path held d)
    (hlog : ∃ batches bs, Log.encodeAll batches = .ok bs ∧
      d'.content? (logPlace (Path.place path)) = some bs) : Ready path held' d' where
  found := hgrows.directories.find h.found
  locked := by
    have hlocked := h.locked
    cases hlock : d'.content? (lockPlace (Path.place path)) with
    | some bs => rfl
    | none =>
        rw [hgrows.files hlock] at hlocked
        cases hlocked
  logged := hlog
  free := hheld.trans h.free

/-- What is barred stays barred as long as its log stays the same. -/
theorem Barred.of_grows (h : Barred path options held d)
    (hlog : ∀ bs, d.content? (logPlace (Path.place path)) = some bs →
      d'.content? (logPlace (Path.place path)) = some bs) : Barred path options held' d' := by
  cases h with
  | way hway => exact .way fun hleads => hway (hleads.of_grows hgrows)
  | lock hlock => exact .lock (hgrows.directories _ hlock)
  | held h => exact .held (hheld.trans h)
  | log hnode => exact .log (hgrows.directories _ hnode)
  | damaged hremove hcontent hdamage => exact .damaged hremove (hlog _ hcontent) hdamage

end Grown

end Engine

end ObjectStore
