import ObjectStore.Proofs.Object.Key

/-!
# The segments of a key

A key text is the scheme and three segments with slashes between them. A segment is not empty and has
no slash, so a text spells at most one list of segments, whatever else is in them: the text of the
scheme, or another key, cannot make it read differently.

Main statements: `ObjectKey.parse?_eq_some_iff`, which texts are keys and of what, and
`Key.unambiguous`, that the predicates on keys agree with each other on every text.
-/

namespace ObjectStore

/-- Whether a text can be a segment of a key. -/
def IsSegment (s : String) : Prop :=
  s ≠ "" ∧ '/' ∉ s.toList

instance (s : String) : Decidable (IsSegment s) :=
  inferInstanceAs (Decidable (s ≠ "" ∧ '/' ∉ s.toList))

/-- The record ids that pass are those that can be one more segment. -/
theorem Key.checkUid_eq_ok_iff_isSegment {uid : String} :
    Key.checkUid uid = .ok () ↔ IsSegment uid :=
  checkUid_eq_ok_iff

/-- No piece of a split text has the character that it was split at. -/
theorem notMem_of_mem_splitOn {c : Char} {cs piece : List Char} (h : piece ∈ cs.splitOn c) :
    c ∉ piece := by
  induction cs generalizing piece with
  | nil => simp_all
  | cons d cs ih =>
    rw [List.splitOn_cons_eq_if_modifyHead] at h
    split at h
    · rcases List.mem_cons.mp h with rfl | h
      · exact List.not_mem_nil
      · exact ih h
    · rename_i hne
      obtain ⟨first, others, hsplit⟩ := List.exists_cons_of_ne_nil (List.splitOn_ne_nil c cs)
      rw [hsplit, List.modifyHead_cons] at h
      rcases List.mem_cons.mp h with rfl | h
      · have hfirst : c ∉ first := ih (by simp [hsplit])
        intro hmem
        rcases List.mem_cons.mp hmem with rfl | hmem
        · exact hne (beq_self_eq_true _)
        · exact hfirst hmem
      · exact ih (by simp [hsplit, h])

namespace ObjectKey

/-- The characters of a key are those of its pieces, with slashes between them. -/
theorem toList_build (k : ObjectKey) :
    k.build.toList = ['/'].intercalate
      [['u', 'd', 'm', 'f', ':'], [], k.intention.toList, k.bundle.toList, k.group.toList] := by
  simp [build, keyScheme, List.intercalate]

/-- What segments spell has their slashes and four more. -/
theorem slashCount_build (k : ObjectKey) :
    Key.slashCount k.build =
      4 + Key.slashCount k.intention + Key.slashCount k.bundle + Key.slashCount k.group := by
  unfold Key.slashCount
  rw [toList_build]
  simp [List.intercalate]
  omega

/-- What segments without slashes spell splits into them again. -/
theorem splitOn_build {k : ObjectKey} (hintention : '/' ∉ k.intention.toList)
    (hbundle : '/' ∉ k.bundle.toList) (hgroup : '/' ∉ k.group.toList) :
    k.build.toList.splitOn '/' =
      [['u', 'd', 'm', 'f', ':'], [], k.intention.toList, k.bundle.toList, k.group.toList] := by
  rw [toList_build]
  apply List.splitOn_intercalate
  · simp [hintention, hbundle, hgroup]
  · exact List.cons_ne_nil _ _

/-- A text is a key just when it spells three segments, and then it is the key of these. -/
theorem parse?_eq_some_iff {s : String} {k : ObjectKey} :
    parse? s = some k ↔
      IsSegment k.intention ∧ IsSegment k.bundle ∧ IsSegment k.group ∧ k.build = s ∧ k.cached = s := by
  have hempty (cs : List Char) : String.ofList cs ≠ "" ↔ cs ≠ [] := by
    rw [← String.ofList_nil, ne_eq, String.ofList_inj]
  constructor
  · intro h
    unfold parse? at h
    split at h
    · rename_i scheme intention bundle group hsplit
      split at h
      · rename_i hpieces
        obtain ⟨rfl, hintention, hbundle, hgroup⟩ := hpieces
        cases h
        have hfree (piece : List Char) (hmem : piece ∈ s.toList.splitOn '/') :
            '/' ∉ (String.ofList piece).toList := by
          rw [String.toList_ofList]
          exact notMem_of_mem_splitOn hmem
        refine ⟨⟨(hempty _).mpr hintention, hfree _ (by simp [hsplit])⟩,
          ⟨(hempty _).mpr hbundle, hfree _ (by simp [hsplit])⟩,
          ⟨(hempty _).mpr hgroup, hfree _ (by simp [hsplit])⟩, ?_, rfl⟩
        apply String.toList_inj.mp
        simp only [toList_build, String.toList_ofList]
        rw [← hsplit, List.intercalate_splitOn]
      · cases h
    · cases h
  · rintro ⟨hintention, hbundle, hgroup, hbuild, hcached⟩
    have hne {segment : String} (h : IsSegment segment) : segment.toList ≠ [] := by
      simpa using h.1
    subst hbuild
    simp only [parse?, splitOn_build hintention.2 hbundle.2 hgroup.2]
    rw [if_pos ⟨trivial, hne hintention, hne hbundle, hne hgroup⟩]
    simp [← hcached]

/-- A key that was read has the text that it was read from. -/
theorem text_of_parse? {s : String} {k : ObjectKey} (h : parse? s = some k) : k.text = s := by
  obtain ⟨-, -, -, hbuild, hcached⟩ := parse?_eq_some_iff.mp h
  unfold text
  split
  · exact hbuild
  · exact hcached

/-- The text of a key made of segments is what they spell. -/
theorem text_ofSegments (intention bundle group : String) :
    (ofSegments intention bundle group).text = (ofSegments intention bundle group).build := by
  unfold text
  split
  · rfl
  · rfl

/-- A key made of segments is valid just when these are segments. Two lists of segments that spell
one text have as many slashes, and so the text splits in one way only. -/
theorem isValid_ofSegments {intention bundle group : String} :
    (ofSegments intention bundle group).isValid = true ↔
      IsSegment intention ∧ IsSegment bundle ∧ IsSegment group := by
  rw [isValid, Option.isSome_iff_exists, text_ofSegments]
  constructor
  · rintro ⟨k, h⟩
    obtain ⟨hk₁, hk₂, hk₃, hbuild, -⟩ := parse?_eq_some_iff.mp h
    have hslashes := congrArg Key.slashCount hbuild
    have hfree {s : String} (h : '/' ∉ s.toList) : Key.slashCount s = 0 := List.count_eq_zero.mpr h
    rw [slashCount_build, slashCount_build, hfree hk₁.2, hfree hk₂.2, hfree hk₃.2] at hslashes
    have hintention : '/' ∉ intention.toList := List.count_eq_zero.mp (by
      change Key.slashCount (ofSegments intention bundle group).intention = 0
      omega)
    have hbundle : '/' ∉ bundle.toList := List.count_eq_zero.mp (by
      change Key.slashCount (ofSegments intention bundle group).bundle = 0
      omega)
    have hgroup : '/' ∉ group.toList := List.count_eq_zero.mp (by
      change Key.slashCount (ofSegments intention bundle group).group = 0
      omega)
    have hsplit := congrArg (fun s => s.toList.splitOn '/') hbuild
    simp only [splitOn_build hk₁.2 hk₂.2 hk₃.2,
      splitOn_build (k := ofSegments intention bundle group) hintention hbundle hgroup,
      List.cons.injEq, String.toList_inj, and_true, true_and] at hsplit
    obtain ⟨h₁, h₂, h₃⟩ := hsplit
    rw [h₁] at hk₁
    rw [h₂] at hk₂
    rw [h₃] at hk₃
    exact ⟨hk₁, hk₂, hk₃⟩
  · rintro ⟨hintention, hbundle, hgroup⟩
    exact ⟨ofSegments intention bundle group,
      parse?_eq_some_iff.mpr ⟨hintention, hbundle, hgroup, rfl, rfl⟩⟩

end ObjectKey

namespace Key

/-- A group key has the shape of one. -/
theorem isGroupShaped_of_parse? {g : String} (hg : (ObjectKey.parse? g).isSome) :
    isGroupShaped g = true := by
  rw [isGroupShaped, slashCount_of_parse? hg]
  rfl

section Groups

variable {g g' uid uid' : String} (hg : (ObjectKey.parse? g).isSome)
  (hg' : (ObjectKey.parse? g').isSome)

include hg hg'

/-- A group key belongs to no other group key. -/
theorem belongsTo_group_iff : belongsTo (Utf8.encode g') g = true ↔ g = g' := by
  constructor
  · intro h
    exact eq_of_belongsTo hg hg' h (belongsTo_self g')
  · rintro rfl
    exact belongsTo_self g

/-- A member key belongs to no group key but its own. -/
theorem belongsTo_member_iff : belongsTo (Utf8.encode (member g' uid)) g = true ↔ g = g' := by
  constructor
  · intro h
    exact eq_of_belongsTo hg hg' h (belongsTo_member g' uid)
  · rintro rfl
    exact belongsTo_member g uid

/-- A member key spells its group and its record id. -/
theorem member_inj : member g uid = member g' uid' ↔ g = g' ∧ uid = uid' := by
  constructor
  · intro h
    have hmember : belongsTo (Utf8.encode (member g' uid')) g = true := h ▸ belongsTo_member g uid
    obtain rfl := (belongsTo_member_iff hg hg').mp hmember
    exact ⟨rfl, member_injective (congrArg Utf8.encode h)⟩
  · rintro ⟨rfl, rfl⟩
    rfl

end Groups

/-- The key scheme can be read in one way only. A text is a key just when it is the scheme and three
segments with slashes between them, and it is read as these and keeps its text; a key made of texts is
valid just when these are segments. Of group keys and record ids that pass, the number of slashes tells
groups from members, a member key spells its group and its record id, and a group key or a member key
belongs to its own group and to no other. -/
theorem unambiguous :
    (∀ s k, ObjectKey.parse? s = some k ↔
      ∃ a b c, IsSegment a ∧ IsSegment b ∧ IsSegment c ∧
        s = keyScheme ++ a ++ "/" ++ b ++ "/" ++ c ∧
        k = { cached := s, intention := a, bundle := b, group := c }) ∧
    (∀ s k, ObjectKey.parse? s = some k → k.text = s) ∧
    (∀ a b c, (ObjectKey.ofSegments a b c).isValid = true ↔
      IsSegment a ∧ IsSegment b ∧ IsSegment c) ∧
    ∀ g g' uid uid', (ObjectKey.parse? g).isSome → (ObjectKey.parse? g').isSome →
      checkUid uid = .ok () → checkUid uid' = .ok () →
      isGroupShaped g = true ∧
      isGroupShaped (member g uid) = false ∧
      (member g uid = member g' uid' ↔ g = g' ∧ uid = uid') ∧
      (belongsTo (Utf8.encode g') g = true ↔ g = g') ∧
      (belongsTo (Utf8.encode (member g' uid)) g = true ↔ g = g') := by
  refine ⟨fun s k => ?_, fun s k => ObjectKey.text_of_parse?,
    fun a b c => ObjectKey.isValid_ofSegments, fun g g' uid uid' hg hg' _ _ => ?_⟩
  · rw [ObjectKey.parse?_eq_some_iff]
    constructor
    · rintro ⟨ha, hb, hc, hbuild, rfl⟩
      exact ⟨k.intention, k.bundle, k.group, ha, hb, hc, hbuild.symm, rfl⟩
    · rintro ⟨a, b, c, ha, hb, hc, hs, rfl⟩
      exact ⟨ha, hb, hc, hs.symm, rfl⟩
  · exact ⟨isGroupShaped_of_parse? hg, isGroupShaped_member hg uid, member_inj hg hg',
      belongsTo_group_iff hg hg', belongsTo_member_iff hg hg'⟩

/-- A group key in front of another one takes nothing of that group, also where a segment is the text
that keys start with. -/
theorem unambiguous_front :
    member "udmf://drag/udmf:/g" "0" ≠ member "udmf://drag/udmf:/g0" "0" ∧
    belongsTo (Utf8.encode (member "udmf://drag/udmf:/g0" "0")) "udmf://drag/udmf:/g" ≠ true := by
  have huid : checkUid "0" = .ok () := checkUid_eq_ok_iff_isSegment.mpr (by decide)
  have h := unambiguous.2.2.2 "udmf://drag/udmf:/g" "udmf://drag/udmf:/g0" "0" "0"
    (by decide +kernel) (by decide +kernel) huid huid
  exact ⟨fun heq => absurd (h.2.2.1.mp heq).1 (by decide),
    fun hbelongs => absurd (h.2.2.2.2.mp hbelongs) (by decide)⟩

end Key

end ObjectStore
