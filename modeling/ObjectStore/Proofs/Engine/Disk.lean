import ObjectStore.Engine.Disk
import ObjectStore.Proofs.Action
import ObjectStore.Proofs.SortedMap

/-!
# How disks change

Stores only ever add to a disk and write to the files that they have open. So a place that holds a
directory goes on holding one, and a path that leads to a directory goes on leading there.

Main statements: `Extends.of_content?_eq_some`, that adding writes nothing into files, and
`KeepsDirectories.find`, that paths to directories are stable.
-/

namespace ObjectStore.Disk

theorem node?_set (d : Disk) (place : List String) (node : Node) (p : List String) :
    (d.set place node).node? p = if p = place ∧ p ≠ [] then some node else d.node? p := by
  unfold node? set
  by_cases hroot : p = []
  · simp [hroot]
  · simp [hroot, SortedMap.get?_insert]

/-- The content of the file that was put at a place. -/
theorem content?_set_self (d : Disk) {place : List String} (hroot : place ≠ []) (bs : Bytes) :
    (d.set place (.file bs)).content? place = some bs := by
  simp [content?, node?_set, hroot]

theorem content?_set_of_ne (d : Disk) {place p : List String} (hne : p ≠ place) (node : Node) :
    (d.set place node).content? p = d.content? p := by
  simp [content?, node?_set, hne]

theorem content?_eq_some_iff {d : Disk} {p : List String} {bs : Bytes} :
    d.content? p = some bs ↔ d.node? p = some (.file bs) := by
  unfold content?
  split
  · rename_i content h
    simp [h]
  · rename_i h
    constructor
    · intro h'
      cases h'
    · intro h'
      exact absurd h' (h bs)

/-! ## Adding -/

/-- Everything stays as it is, and what is added are directories and empty files. -/
structure Extends (d d' : Disk) : Prop where
  /-- What is there stays there. -/
  kept : ∀ {p node}, d.node? p = some node → d'.node? p = some node
  /-- What was not there is a directory or an empty file. -/
  added : ∀ {p node}, d'.node? p = some node →
    d.node? p = some node ∨ node = .directory ∨ node = .file []

namespace Extends

variable {d d' d'' : Disk}

theorem refl (d : Disk) : Extends d d where
  kept h := h
  added h := .inl h

theorem trans (h : Extends d d') (h' : Extends d' d'') : Extends d d'' where
  kept hp := h'.kept (h.kept hp)
  added hp := by
    rcases h'.added hp with hp | hp
    · exact h.added hp
    · exact .inr hp

/-- A directory or an empty file may be put where nothing is. -/
theorem set {place : List String} {node : Node} (hnone : d.node? place = none)
    (hnode : node = .directory ∨ node = .file []) : Extends d (d.set place node) where
  kept {p node'} hp := by
    have hne : p ≠ place := by
      rintro rfl
      rw [hnone] at hp
      cases hp
    simp [node?_set, hne, hp]
  added {p node'} hp := by
    rw [node?_set] at hp
    split at hp
    · cases hp
      exact .inr hnode
    · exact .inl hp

theorem content?_of_some (h : Extends d d') {p : List String} {bs : Bytes}
    (hp : d.content? p = some bs) : d'.content? p = some bs := by
  rw [content?_eq_some_iff] at hp ⊢
  exact h.kept hp

/-- A file that was not there is empty. -/
theorem of_content?_eq_some (h : Extends d d') {p : List String} {bs : Bytes}
    (hp : d'.content? p = some bs) : d.content? p = some bs ∨ d.content? p = none ∧ bs = [] := by
  cases hold : d.content? p with
  | some old =>
      have hkept := h.content?_of_some hold
      rw [hp] at hkept
      exact .inl hkept.symm
  | none =>
      rw [content?_eq_some_iff] at hp
      rcases h.added hp with hp | hp | hp
      · rw [content?_eq_some_iff.mpr hp] at hold
        cases hold
      · cases hp
      · cases hp
        exact .inr ⟨rfl, rfl⟩

end Extends

/-- A file that was opened is there, and if it was not there before it is empty now. -/
theorem extends_openFile? {d d' : Disk} {place : List String} {bs : Bytes}
    (h : d.openFile? place = some (bs, d')) :
    Extends d d' ∧ d'.content? place = some bs ∧ ∀ p, p ≠ place → d'.content? p = d.content? p := by
  unfold openFile? at h
  split at h
  · cases h
  · rename_i content hnode
    cases h
    exact ⟨.refl d, content?_eq_some_iff.mpr hnode, fun _ _ => rfl⟩
  · rename_i hnone
    cases h
    have hroot : place ≠ [] := by
      rintro rfl
      cases hnone
    exact ⟨.set hnone (.inr rfl), content?_set_self d hroot [],
      fun p hp => content?_set_of_ne d hp _⟩

/-! ## Writing to files -/

theorem content?_writeAt_self {d : Disk} {place : List String} {bs : Bytes} (hroot : place ≠ [])
    (h : d.content? place = some bs) (record : Bytes) :
    (d.writeAt place bs.length record).content? place = some (bs ++ record) := by
  unfold writeAt
  rw [content?_set_self _ hroot, h]
  simp

theorem content?_writeAt_of_ne (d : Disk) {place p : List String} (hne : p ≠ place)
    (offset : Nat) (record : Bytes) :
    (d.writeAt place offset record).content? p = d.content? p :=
  content?_set_of_ne d hne _

theorem content?_truncate_self {d : Disk} {place : List String} {bs : Bytes} (hroot : place ≠ [])
    (h : d.content? place = some bs) (n : Nat) :
    (d.truncate place n).content? place = some (bs.take n) := by
  unfold truncate
  rw [h]
  exact content?_set_self d hroot _

theorem content?_truncate_of_ne (d : Disk) {place p : List String} (hne : p ≠ place) (n : Nat) :
    (d.truncate place n).content? p = d.content? p := by
  unfold truncate
  split
  · exact content?_set_of_ne d hne _
  · rfl

/-! ## Paths to directories -/

/-- What was a directory is one. -/
def KeepsDirectories (d d' : Disk) : Prop :=
  ∀ p, d.node? p = some .directory → d'.node? p = some .directory

namespace KeepsDirectories

variable {d d' d'' : Disk}

theorem refl (d : Disk) : KeepsDirectories d d :=
  fun _ h => h

theorem trans (h : KeepsDirectories d d') (h' : KeepsDirectories d' d'') :
    KeepsDirectories d d'' :=
  fun p hp => h' p (h p hp)

/-- A file may be written in the place of a file. -/
theorem set_file {place : List String} {old : Bytes} (h : d.content? place = some old)
    (bs : Bytes) : KeepsDirectories d (d.set place (.file bs)) := by
  intro p hp
  have hne : p ≠ place := by
    rintro rfl
    rw [content?_eq_some_iff, hp] at h
    cases h
  simp [node?_set, hne, hp]

theorem writeAt {place : List String} {old : Bytes} (h : d.content? place = some old)
    (offset : Nat) (bs : Bytes) : KeepsDirectories d (d.writeAt place offset bs) :=
  set_file h _

theorem truncate (d : Disk) (place : List String) (n : Nat) :
    KeepsDirectories d (d.truncate place n) := by
  unfold Disk.truncate
  split
  · rename_i content h
    exact set_file h _
  · exact refl d

theorem enter (h : KeepsDirectories d d') {place place' : List String} {name : String}
    (henter : d.enter place name = .ok place') : d'.enter place name = .ok place' := by
  unfold Disk.enter at henter ⊢
  split at henter
  · cases henter
  · cases henter
  · rename_i hnode
    rw [h place hnode]
    exact henter

theorem follow (h : KeepsDirectories d d') {names place : List String}
    (hfollow : d.follow names = .ok place) : d'.follow names = .ok place := by
  unfold Disk.follow at hfollow ⊢
  generalize ([] : List String) = start at hfollow ⊢
  induction names generalizing start with
  | nil => exact hfollow
  | cons name names ih =>
      rw [List.foldlM_cons] at hfollow ⊢
      -- Each step enters a directory, and that is still one.
      obtain ⟨next, henter, hrest⟩ := Answer.bind_eq_ok_iff.mp hfollow
      exact Answer.bind_eq_ok_iff.mpr ⟨next, h.enter henter, ih next hrest⟩

end KeepsDirectories

theorem Extends.keepsDirectories {d d' : Disk} (h : Extends d d') : KeepsDirectories d d' :=
  fun _ hp => h.kept hp

/-- The names of a path lead to where the path is found to lead. -/
theorem follow_of_find {d : Disk} {path : String} {place : List String} {node : Node}
    (h : d.find path = .ok (place, node)) :
    Path.isUsable path = true ∧ d.follow (Path.names path) = .ok place ∧
      d.node? place = some node := by
  obtain ⟨place', hlocate, hnode⟩ := Answer.bind_eq_ok_iff.mp h
  split at hnode
  · rename_i found hplace
    cases hnode
    unfold locate at hlocate
    split at hlocate
    · rename_i husable
      split at hlocate
      · cases hlocate
      · rename_i hfollow
        split at hlocate
        · cases hlocate
        · cases hlocate
          exact ⟨husable, hfollow, hplace⟩
    · cases hlocate
  · cases hnode

theorem locate_of_follow {d : Disk} {path : String} {place : List String}
    (husable : Path.isUsable path = true) (hfollow : d.follow (Path.names path) = .ok place)
    (hnode : d.node? place = some .directory) : d.locate path = .ok place := by
  -- No file is at the place, so that a slash at the end of the path does no harm.
  have hno : ¬ (Path.endsInSlash path ∧ (d.content? place).isSome) := by
    simp [content?, hnode]
  unfold locate
  rw [if_pos husable, hfollow]
  simp only [if_neg hno]

theorem find_of_follow {d : Disk} {path : String} {place : List String}
    (husable : Path.isUsable path = true) (hfollow : d.follow (Path.names path) = .ok place)
    (hnode : d.node? place = some .directory) : d.find path = .ok (place, .directory) := by
  refine Answer.bind_eq_ok_iff.mpr ⟨place, locate_of_follow husable hfollow hnode, ?_⟩
  rw [hnode]

/-- A path that leads to a directory goes on leading there. -/
theorem KeepsDirectories.find {d d' : Disk} (h : KeepsDirectories d d') {path : String}
    {place : List String} (hfind : d.find path = .ok (place, .directory)) :
    d'.find path = .ok (place, .directory) := by
  obtain ⟨husable, hfollow, hnode⟩ := follow_of_find hfind
  exact find_of_follow husable (h.follow hfollow) (h place hnode)

/-! ## Making directories -/

theorem extends_makeDirectory {d d' : Disk} {names place : List String}
    (h : d.makeDirectory names = .ok (place, d')) :
    Extends d d' ∧ (∀ p, d'.content? p = d.content? p) ∧ d'.follow names = .ok place ∧
      d'.node? place = some .directory := by
  obtain ⟨place', hfollow, h⟩ := Answer.bind_eq_ok_iff.mp h
  split at h
  · rename_i hnode
    cases h
    exact ⟨.refl d, fun _ => rfl, hfollow, hnode⟩
  · cases h
  · rename_i hnone
    cases h
    have hroot : place ≠ [] := by
      rintro rfl
      cases hnone
    -- Nothing was at the place, so that the way to it does not change.
    have hext : Extends d (d.set place .directory) := .set hnone (.inl rfl)
    refine ⟨hext, fun p => ?_, hext.keepsDirectories.follow hfollow, by simp [node?_set, hroot]⟩
    by_cases hp : p = place
    · subst hp
      simp [content?, node?_set, hroot, hnone]
    · exact content?_set_of_ne d hp _

/-- Making directories adds directories, changes no file, and leads to the first of the ways. -/
theorem extends_makeFirst (ways : List (List String)) (d : Disk) :
    Extends d (d.makeFirst ways).2 ∧ (∀ p, (d.makeFirst ways).2.content? p = d.content? p) ∧
      ∀ place, (d.makeFirst ways).1 = .ok place →
        (∀ way above, ways = way :: above → (d.makeFirst ways).2.follow way = .ok place) ∧
          (d.makeFirst ways).2.node? place = some .directory := by
  induction ways generalizing d with
  | nil =>
      refine ⟨.refl d, fun _ => rfl, fun place h => ?_⟩
      cases h
  | cons way above ih =>
      unfold makeFirst
      cases hway : d.makeDirectory way with
      | ok found =>
          obtain ⟨place, d'⟩ := found
          obtain ⟨hext, hcontent, hfollow, hnode⟩ := extends_makeDirectory hway
          refine ⟨hext, hcontent, fun place' h => ?_⟩
          cases h
          refine ⟨fun way' above' hways => ?_, hnode⟩
          cases hways
          exact hfollow
      | error err =>
          cases err with
          | missing =>
              -- Something on the way is missing, so the directory above comes first.
              obtain ⟨hext, hcontent, -⟩ := ih d
              rcases hfirst : d.makeFirst above with ⟨err | found, d'⟩
              · rw [hfirst] at hext hcontent
                refine ⟨hext, hcontent, fun place h => ?_⟩
                cases h
              · rw [hfirst] at hext hcontent
                simp only at hext hcontent ⊢
                -- Now everything above the way is there, or the way cannot be made at all.
                cases hway' : d'.makeDirectory way with
                | error err' =>
                    refine ⟨hext, hcontent, fun place h => ?_⟩
                    cases h
                | ok found =>
                    obtain ⟨place, d''⟩ := found
                    obtain ⟨hext', hcontent', hfollow, hnode⟩ := extends_makeDirectory hway'
                    refine ⟨hext.trans hext', fun p => ?_, fun place' h => ?_⟩
                    · rw [← hcontent]
                      exact hcontent' p
                    · cases h
                      refine ⟨fun way' above' hways => ?_, hnode⟩
                      cases hways
                      exact hfollow
          | _ =>
              refine ⟨.refl d, fun _ => rfl, fun place h => ?_⟩
              cases h

/-- A path leads to the directory that was made for it. -/
theorem extends_makeDirectories (path : String) (d : Disk) :
    Extends d (d.makeDirectories path).2 ∧
      (∀ p, (d.makeDirectories path).2.content? p = d.content? p) ∧
      ∀ place, (d.makeDirectories path).1 = .ok place →
        (d.makeDirectories path).2.find path = .ok (place, .directory) := by
  unfold makeDirectories
  split
  · rename_i husable
    obtain ⟨hext, hcontent, hplace⟩ := extends_makeFirst (Path.names path :: Path.above path) d
    refine ⟨hext, hcontent, fun place h => ?_⟩
    obtain ⟨hfollow, hnode⟩ := hplace place h
    exact find_of_follow husable (hfollow _ _ rfl) hnode
  · refine ⟨.refl d, fun _ => rfl, fun place h => ?_⟩
    cases h

end ObjectStore.Disk
