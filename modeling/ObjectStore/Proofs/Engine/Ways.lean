import Mathlib.Data.List.Induction
import ObjectStore.Proofs.Engine.Place

/-!
# Ways on which directories can be made

A directory can be made with everything above it if and only if its way is clear: no file stands on it,
and no name on it is too long. What is missing on the way is made, also where the way goes up again by
`..`; but a way that ends in a plain name is made to its end.

Main statement: `makeDirectories_eq_ok_iff`.
-/

namespace ObjectStore

/-! ## Names of paths -/

namespace Path

theorem names_of_plain {part : List Char} (hpart : part ≠ []) (hslash : '/' ∉ part) :
    names (String.ofList part) = [String.ofList part] := by
  have hsingle : part.splitOn '/' = [part] :=
    List.splitOnP_eq_singleton fun c hc => by
      rw [beq_eq_false_iff_ne]
      rintro rfl
      exact hslash hc
  have hne : String.ofList part ≠ "" := by
    intro h
    exact hpart (by simpa using congrArg String.toList h)
  simp [names, hsingle, hne]

theorem names_append_slash (front part : List Char) :
    names (String.ofList (front ++ '/' :: part)) =
      names (String.ofList front) ++ names (String.ofList part) := by
  have hsplit : (front ++ '/' :: part).splitOn '/' = front.splitOn '/' ++ part.splitOn '/' :=
    List.splitOnP_append_cons front part (by simp)
  simp [names, hsplit]

/-- A name below a directory is the last one on the way. -/
theorem exists_names_join (base : String) {part : String} (hpart : part ≠ "")
    (hslash : '/' ∉ part.toList) : ∃ front, names (join base part) = front ++ [part] := by
  have hnil : part.toList ≠ [] := fun h => hpart (String.toList_eq_nil_iff.mp h)
  have hnames : names part = [part] := by
    have hplain := names_of_plain hnil hslash
    rwa [String.ofList_toList] at hplain
  have hhead : part.toList.head? ≠ some '/' := fun h => hslash (List.mem_of_head? h)
  have hbelow (front : List Char) :
      names (String.ofList (front ++ '/' :: part.toList)) = names (String.ofList front) ++ [part] := by
    rw [names_append_slash, String.ofList_toList, hnames]
  unfold join
  rw [if_neg hhead]
  split
  · rename_i hbase
    rcases hbase with rfl | hlast
    · exact ⟨[], by simpa using hnames⟩
    · obtain ⟨front, hfront⟩ := List.getLast?_eq_some_iff.mp hlast
      have htext : base ++ part = String.ofList (front ++ '/' :: part.toList) := by
        apply String.toList_injective
        simp [hfront]
      exact ⟨_, by rw [htext, hbelow]⟩
  · have htext : base ++ "/" ++ part = String.ofList (base.toList ++ '/' :: part.toList) := by
      apply String.toList_injective
      simp
    exact ⟨_, by rw [htext, hbelow]⟩

/-- The directories above a path go up name by name. -/
theorem prefixes_concat (names : List String) (name : String) :
    (List.range (names ++ [name]).length).reverse.map (names ++ [name]).take =
      names :: (List.range names.length).reverse.map names.take := by
  rw [List.length_append, List.length_singleton, List.range_succ, List.reverse_append]
  simp only [List.reverse_cons, List.reverse_nil, List.nil_append, List.cons_append, List.map_cons,
    List.take_left']
  refine congrArg _ (List.map_congr_left fun n hn => ?_)
  have hlt : n < names.length := by simpa using hn
  exact List.take_append_of_le_length (Nat.le_of_lt hlt)

end Path

namespace Disk

/-! ## Ways that are clear -/

/-- From a place on the names pass no file and are not too long, so that directories can be made all the
way. -/
def Clear (d : Disk) : (place : List String) → (names : List String) → Prop
  | place, [] => d.content? place = none
  | place, name :: names =>
    d.content? place = none ∧ (name = "." ∨ name = ".." ∨ name.utf8ByteSize ≤ Path.nameLimit) ∧
      Clear d (Path.next place name) names

variable {d d' : Disk} {place place' names : List String}

theorem node?_of_content?_eq_none (h : d.content? place = none) :
    d.node? place = none ∨ d.node? place = some .directory := by
  unfold content? at h
  split at h
  · cases h
  · rename_i hno
    cases hnode : d.node? place with
    | none => exact .inl rfl
    | some node =>
        cases node with
        | directory => exact .inr rfl
        | file bs => exact absurd hnode (hno bs)

theorem content?_of_directory (h : d.node? place = some .directory) : d.content? place = none := by
  simp [content?, h]

/-- A directory can be entered by every name that is not too long. -/
theorem enter_of_directory (h : d.node? place = some .directory) {name : String}
    (hname : name = "." ∨ name = ".." ∨ name.utf8ByteSize ≤ Path.nameLimit) :
    d.enter place name = .ok (Path.next place name) := by
  unfold enter Path.next
  rw [h]
  simp only
  split
  · rfl
  · rename_i hdot
    split
    · rfl
    · rename_i hup
      rcases hname with heq | heq | hshort
      · exact absurd heq hdot
      · exact absurd heq hup
      · rw [if_neg (Nat.not_lt_of_le hshort)]

/-- A way that leads to a directory is clear. -/
theorem clear_of_foldlM (h : names.foldlM d.enter place = .ok place')
    (hnode : d.node? place' = some .directory) : d.Clear place names := by
  induction names generalizing place with
  | nil =>
      cases h
      exact content?_of_directory hnode
  | cons name names ih =>
      rw [List.foldlM_cons] at h
      obtain ⟨next, henter, hrest⟩ := Answer.bind_eq_ok_iff.mp h
      obtain ⟨hdirectory, rfl, hname⟩ := directory_of_enter henter
      exact ⟨content?_of_directory hdirectory, hname, ih hrest⟩

/-- A clear way leads to no file, or to nowhere because something is missing. -/
theorem foldlM_of_clear (h : d.Clear place names) :
    (∃ place', names.foldlM d.enter place = .ok place' ∧ d.content? place' = none) ∨
      names.foldlM d.enter place = .error .missing := by
  induction names generalizing place with
  | nil => exact .inl ⟨place, rfl, h⟩
  | cons name names ih =>
      obtain ⟨hplace, hname, hrest⟩ := h
      rw [List.foldlM_cons]
      rcases node?_of_content?_eq_none hplace with hnone | hdirectory
      · refine .inr ?_
        unfold enter
        rw [hnone]
        rfl
      · rw [enter_of_directory hdirectory hname]
        exact ih hrest

/-- Fewer files leave a way clear. -/
theorem Clear.mono (h : d'.Clear place names)
    (hfiles : ∀ p, d'.content? p = none → d.content? p = none) : d.Clear place names := by
  induction names generalizing place with
  | nil => exact hfiles _ h
  | cons name names ih => exact ⟨hfiles _ h.1, h.2.1, ih h.2.2⟩

/-- The front part of a clear way is clear, and its last name is not too long. -/
theorem Clear.of_concat {name : String} (h : d.Clear place (names ++ [name])) :
    d.Clear place names ∧ (name = "." ∨ name = ".." ∨ name.utf8ByteSize ≤ Path.nameLimit) ∧
      d.content? (Path.next (names.foldl Path.next place) name) = none := by
  induction names generalizing place with
  | nil => exact ⟨h.1, h.2.1, h.2.2⟩
  | cons _ names ih =>
      obtain ⟨hfront, hname, hlast⟩ := ih h.2.2
      exact ⟨⟨h.1, h.2.1, hfront⟩, hname, hlast⟩

/-- The names `.` are no part of a way. -/
theorem Clear.filter (h : d.Clear place names) : d.Clear place (names.filter (· ≠ ".")) := by
  induction names generalizing place with
  | nil => exact h
  | cons name names ih =>
      obtain ⟨hplace, hname, hrest⟩ := h
      by_cases hdot : name = "."
      · subst hdot
        simpa [Path.next] using ih hrest
      · rw [List.filter_cons_of_pos (by simpa using hdot)]
        exact ⟨hplace, hname, ih hrest⟩

/-- Where a way leads to a directory, it does so with all names `.` on it. -/
theorem foldlM_of_filter (h : (names.filter (· ≠ ".")).foldlM d.enter place = .ok place')
    (hnode : d.node? place' = some .directory) : names.foldlM d.enter place = .ok place' := by
  induction names generalizing place with
  | nil => exact h
  | cons name names ih =>
      rw [List.foldlM_cons]
      by_cases hdot : name = "."
      · subst hdot
        have hrest : (names.filter (· ≠ ".")).foldlM d.enter place = .ok place' := by
          simpa using h
        -- What the way goes on from is a directory, because it goes on or ends there.
        have hplace : d.node? place = some .directory := by
          cases hnames : names.filter (· ≠ ".") with
          | nil =>
              rw [hnames] at hrest
              cases hrest
              exact hnode
          | cons first later =>
              rw [hnames, List.foldlM_cons] at hrest
              obtain ⟨next, henter, -⟩ := Answer.bind_eq_ok_iff.mp hrest
              exact (directory_of_enter henter).1
        rw [enter_of_directory hplace (.inl rfl)]
        exact ih hrest
      · have hfront : name :: names.filter (· ≠ ".") = (name :: names).filter (· ≠ ".") := by
          simp [hdot]
        rw [← hfront, List.foldlM_cons] at h
        obtain ⟨next, henter, hrest⟩ := Answer.bind_eq_ok_iff.mp h
        rw [henter]
        exact ih hrest

/-! ## Making directories on clear ways -/

/-- Where the names lead to no file, a directory is or can be made. -/
theorem makeDirectory_of_follow (hfollow : d.follow names = .ok place)
    (hplace : d.content? place = none) : ∃ found, d.makeDirectory names = .ok found := by
  unfold makeDirectory
  rw [hfollow, Answer.ok_bind]
  rcases node?_of_content?_eq_none hplace with hnode | hnode
  · rw [hnode]
    exact ⟨_, rfl⟩
  · rw [hnode]
    exact ⟨_, rfl⟩

/-- Where the directory above is there, the last one of a clear way can be made. -/
theorem makeDirectory_of_clear {name : String} (h : d.Clear [] (names ++ [name]))
    (hfollow : d.follow names = .ok place) (hnode : d.node? place = some .directory) :
    ∃ found, d.makeDirectory (names ++ [name]) = .ok found := by
  obtain ⟨-, hname, hlast⟩ := h.of_concat
  have hplace := place_of_follow hfollow
  rw [← hplace] at hlast
  have hway : d.follow (names ++ [name]) = .ok (Path.next place name) := by
    unfold follow at hfollow ⊢
    rw [List.foldlM_append, hfollow]
    show ([name].foldlM d.enter place) = _
    rw [List.foldlM_cons, enter_of_directory hnode hname]
    rfl
  exact makeDirectory_of_follow hway hlast

/-- On a clear way the last directory can be made, or something before it is missing. -/
theorem makeDirectory_cases (h : d.Clear [] names) :
    (∃ found, d.makeDirectory names = .ok found) ∨ d.makeDirectory names = .error .missing := by
  rcases foldlM_of_clear h with ⟨place, hfollow, hplace⟩ | hmissing
  · exact .inl (makeDirectory_of_follow hfollow hplace)
  · refine .inr ?_
    unfold makeDirectory follow
    rw [hmissing]
    rfl

/-- Once the way to the directory above leads there, the first way can be made. -/
theorem makeFirst_of_above {name : String} {above : List String} {ways : List (List String)}
    (h : d.Clear [] (names ++ [name]))
    (habove : ∃ place, (d.makeFirst (above :: ways)).1 = .ok place)
    (hlead : ∀ d' : Disk, ∀ place, d'.follow above = .ok place →
      d'.node? place = some .directory → d'.follow names = .ok place) :
    ∃ place, (d.makeFirst ((names ++ [name]) :: above :: ways)).1 = .ok place := by
  rw [makeFirst]
  rcases makeDirectory_cases h with ⟨found, hfound⟩ | hmissing
  · rw [hfound]
    exact ⟨found.1, rfl⟩
  · rw [hmissing]
    obtain ⟨place, hplace⟩ := habove
    obtain ⟨hext, hcontent, hmade⟩ := extends_makeFirst (above :: ways) d
    obtain ⟨hfollow, hnode⟩ := hmade place hplace
    rcases hfirst : d.makeFirst (above :: ways) with ⟨first, d'⟩
    rw [hfirst] at hplace hcontent hfollow hnode
    simp only at hplace hcontent hfollow hnode
    rw [hplace]
    -- No file was made, so that the way is still clear.
    have hclear : d'.Clear [] (names ++ [name]) := h.mono fun p hp => (hcontent p).trans hp
    obtain ⟨found, hfound⟩ :=
      makeDirectory_of_clear hclear (hlead d' place (hfollow _ _ rfl) hnode) hnode
    simp only [hfound]
    exact ⟨found.1, rfl⟩

/-- On a clear way all directories can be made. -/
theorem makeFirst_of_clear (h : d.Clear [] names) :
    ∃ place, (d.makeFirst
      (names :: (List.range names.length).reverse.map names.take)).1 = .ok place := by
  induction names using List.reverseRecOn with
  | nil => exact ⟨[], rfl⟩
  | append_singleton names name ih =>
      rw [Path.prefixes_concat]
      exact makeFirst_of_above h (ih h.of_concat.1) fun d' place hfollow _ => hfollow

/-- The directory of a path can be made if and only if the path is usable and its way clear. -/
theorem makeDirectories_eq_ok_iff {path name : String} {front : List String}
    (hnames : Path.names path = front ++ [name]) (hname : name ≠ ".") :
    (∃ place, (d.makeDirectories path).1 = .ok place) ↔
      Path.isUsable path = true ∧ d.Clear [] (Path.names path) := by
  constructor
  · intro h
    obtain ⟨place, hplace⟩ := h
    obtain ⟨-, hcontent, hfind⟩ := extends_makeDirectories path d
    have husable : Path.isUsable path = true := by
      unfold makeDirectories at hplace
      split at hplace
      · assumption
      · cases hplace
    refine ⟨husable, ?_⟩
    unfold makeDirectories at hplace hcontent
    rw [if_pos husable] at hplace hcontent
    obtain ⟨-, -, hmade⟩ := extends_makeFirst (Path.names path :: Path.above path) d
    obtain ⟨hfollow, hnode⟩ := hmade place hplace
    exact (clear_of_foldlM (hfollow _ _ rfl) hnode).mono fun p hp => (hcontent p).symm.trans hp
  · intro h
    obtain ⟨husable, hclear⟩ := h
    have hfilter : (Path.names path).filter (· ≠ ".") = front.filter (· ≠ ".") ++ [name] := by
      rw [hnames]
      simp [hname]
    unfold makeDirectories
    rw [if_pos husable, Path.above, hfilter, Path.prefixes_concat]
    rw [hnames] at hclear ⊢
    refine makeFirst_of_above hclear (makeFirst_of_clear hclear.of_concat.1.filter) ?_
    intro d' place hfollow hnode
    exact foldlM_of_filter hfollow hnode

end Disk

end ObjectStore
