import ObjectStore.Object.Key
import ObjectStore.Proofs.Bytes.Utf8

/-!
# Group keys, member keys and what belongs to them

Stored keys are bytes, so the laws of the key scheme are laws of bytes. They all come from one count:
a group key has four slashes and a member key has five, and no character but the slash has the byte
of the slash in its UTF-8 form.

Main statements: `eq_of_belongsTo`, that groups never overlap, and `belongsTo_trans`, that whatever a
key text matches, it matches whole objects.
-/

namespace ObjectStore

/-! ## Slashes as bytes -/

/-- The byte of a slash. -/
def Key.slash : UInt8 := '/'.toUInt8

namespace Key

/-- The bytes of a character are one slash for the slash, and no slash for any other character. -/
theorem count_slash_utf8EncodeChar (c : Char) :
    (String.utf8EncodeChar c).count slash = if c = '/' then 1 else 0 := by
  by_cases h : c = '/'
  · subst h
    decide
  · have hval : c.val.toNat ≠ 47 := by
      intro hval
      apply h
      apply Char.ext
      apply UInt32.toNat_inj.mp
      simpa using hval
    have hbyte (n : Nat) (hn : n % 256 ≠ 47) : UInt8.ofNat n ≠ slash := by
      intro heq
      have htoNat := congrArg UInt8.toNat heq
      rw [UInt8.toNat_ofNat'] at htoNat
      exact hn htoNat
    rw [if_neg h, List.count_eq_zero]
    intro hmem
    -- A byte of a longer form is at least `128`.
    unfold String.utf8EncodeChar at hmem
    simp only at hmem
    split at hmem
    · rcases List.mem_singleton.mp hmem with heq
      exact hbyte _ (by omega) heq.symm
    · split at hmem
      · simp only [List.mem_cons, List.not_mem_nil, or_false] at hmem
        rcases hmem with heq | heq
        all_goals exact hbyte _ (by omega) heq.symm
      · split at hmem
        · simp only [List.mem_cons, List.not_mem_nil, or_false] at hmem
          rcases hmem with heq | heq | heq
          all_goals exact hbyte _ (by omega) heq.symm
        · simp only [List.mem_cons, List.not_mem_nil, or_false] at hmem
          rcases hmem with heq | heq | heq | heq
          all_goals exact hbyte _ (by omega) heq.symm

/-- A key has as many slashes in its bytes as in its text. -/
theorem count_slash_encode (s : String) : (Utf8.encode s).count slash = slashCount s := by
  rw [Utf8.encode_eq_flatMap, slashCount]
  induction s.toList with
  | nil => rfl
  | cons c cs ih =>
    rw [List.flatMap_cons, List.count_append, ih, count_slash_utf8EncodeChar, List.count_cons]
    by_cases h : c = '/'
    · simp [h, Nat.add_comm]
    · simp [h]

/-! ## Group keys -/

theorem length_splitOn (c : Char) (cs : List Char) : (cs.splitOn c).length = cs.count c + 1 := by
  induction cs with
  | nil => simp
  | cons d cs ih =>
    rw [List.splitOn_cons_eq_if_modifyHead, List.count_cons]
    by_cases h : d = c
    · simp [h, ih]
    · simp [h, ih]

/-- A group key has four slashes. -/
theorem slashCount_of_parse? {g : String} (h : (ObjectKey.parse? g).isSome) : slashCount g = 4 := by
  -- A group key splits into five pieces.
  have hlen := length_splitOn '/' g.toList
  unfold ObjectKey.parse? at h
  split at h
  · rename_i hsplit
    rw [hsplit] at hlen
    simp only [List.length_cons, List.length_nil] at hlen
    unfold slashCount
    omega
  · cases h

/-- A group key starts with the scheme. -/
theorem keyScheme_isPrefix_of_parse? {g : String} (h : (ObjectKey.parse? g).isSome) :
    Utf8.encode keyScheme <+: Utf8.encode g := by
  unfold ObjectKey.parse? at h
  split at h
  · rename_i scheme intention bundle group hsplit
    split at h
    · rename_i hsegments
      have htext : ['/'].intercalate (g.toList.splitOn '/') = g.toList := List.intercalate_splitOn '/'
      rw [hsplit, hsegments.1] at htext
      have hg : g = keyScheme ++ String.ofList (['/'].intercalate [intention, bundle, group]) := by
        apply String.toList_inj.mp
        rw [← htext]
        simp [keyScheme, List.intercalate]
      rw [hg, Utf8.encode_append]
      exact List.prefix_append _ _
    · cases h
  · cases h

/-! ## Checks -/

theorem checkGroup_eq_ok_iff {key : String} :
    checkGroup key = .ok () ↔ (ObjectKey.parse? key).isSome := by
  unfold checkGroup
  split
  · rename_i h
    simp [h]
  · rename_i h
    simp [h]

theorem checkUid_eq_ok_iff {uid : String} :
    checkUid uid = .ok () ↔ uid ≠ "" ∧ '/' ∉ uid.toList := by
  unfold checkUid
  split
  · rename_i hempty
    simp [hempty]
  · rename_i hne
    split
    · rename_i hslash
      simp [hslash]
    · rename_i hslash
      simp [hne, hslash]

/-- A record id that passes has no slash in its bytes. -/
theorem slash_notMem_of_checkUid {uid : String} (h : checkUid uid = .ok ()) :
    slash ∉ Utf8.encode uid := by
  rw [← List.count_eq_zero, count_slash_encode, slashCount, List.count_eq_zero]
  exact (checkUid_eq_ok_iff.mp h).2

/-! ## What belongs to a key -/

theorem encode_append_slash (key : String) :
    Utf8.encode (key ++ "/") = Utf8.encode key ++ [slash] := by
  have hslash : Utf8.encode "/" = [slash] := by decide +kernel
  rw [Utf8.encode_append, hslash]

theorem encode_member (g uid : String) :
    Utf8.encode (member g uid) = Utf8.encode g ++ slash :: Utf8.encode uid := by
  rw [member, Utf8.encode_append, encode_append_slash, List.append_assoc, List.singleton_append]

theorem belongsTo_iff {k : Bytes} {g : String} :
    belongsTo k g = true ↔ k = Utf8.encode g ∨ ∃ rest, k = Utf8.encode g ++ slash :: rest := by
  unfold belongsTo
  split
  · rename_i hafter
    have hnone (rest : Bytes) : k ≠ Utf8.encode g ++ rest := fun hk => by
      rw [Bytes.after?_eq_some_iff.mpr hk] at hafter
      cases hafter
    have hne : k ≠ Utf8.encode g := by simpa using hnone []
    simp [hne, hnone]
  · rename_i hafter
    have hk := Bytes.after?_eq_some_iff.mp hafter
    simp [hk]
  · rename_i b rest hafter
    have hk := Bytes.after?_eq_some_iff.mp hafter
    simp [hk, slash]

theorem belongsTo_iff_isPrefix {k : Bytes} {key : String} :
    belongsTo k key = true ↔ k = Utf8.encode key ∨ Utf8.encode (key ++ "/") <+: k := by
  rw [belongsTo_iff, encode_append_slash]
  simp [List.IsPrefix, eq_comm]

/-- A group key belongs to itself. -/
theorem belongsTo_self (g : String) : belongsTo (Utf8.encode g) g = true :=
  belongsTo_iff.mpr (.inl rfl)

/-- A member key belongs to its group. -/
theorem belongsTo_member (g uid : String) : belongsTo (Utf8.encode (member g uid)) g = true :=
  belongsTo_iff.mpr (.inr ⟨Utf8.encode uid, encode_member g uid⟩)

/-- What belongs to a key starts with its text. -/
theorem startsWith_of_belongsTo {k : Bytes} {g : String} (h : belongsTo k g = true) :
    k.startsWith (Utf8.encode g) = true := by
  rw [Bytes.startsWith_iff]
  rcases belongsTo_iff.mp h with rfl | ⟨rest, rfl⟩
  · exact List.prefix_rfl
  · exact List.prefix_append _ _

/-- What belongs to a key belongs to everything that the key belongs to. So a key text that matches a
group key matches all that is in the group. -/
theorem belongsTo_trans {k : Bytes} {g key : String} (hk : belongsTo k g = true)
    (hg : belongsTo (Utf8.encode g) key = true) : belongsTo k key = true := by
  rw [belongsTo_iff]
  rcases belongsTo_iff.mp hg with hg | ⟨rest, hg⟩
  · rw [← hg]
    exact belongsTo_iff.mp hk
  · rcases belongsTo_iff.mp hk with rfl | ⟨rest', rfl⟩
    · exact .inr ⟨rest, hg⟩
    · exact .inr ⟨rest ++ slash :: rest', by simp [hg]⟩

private theorem prefix_eq_of_belongsTo {g g' : String} {k rest : Bytes}
    (hg : (ObjectKey.parse? g).isSome) (hg' : (ObjectKey.parse? g').isSome)
    (hk : belongsTo k g = true) (hlong : Utf8.encode g' = Utf8.encode g ++ rest)
    (hk' : Utf8.encode g' <+: k) : rest = [] := by
  have hcount := congrArg (List.count slash) hlong
  rw [List.count_append, count_slash_encode, count_slash_encode, slashCount_of_parse? hg,
    slashCount_of_parse? hg'] at hcount
  cases rest with
  | nil => rfl
  | cons b rest =>
      exfalso
      rw [hlong] at hk'
      rcases belongsTo_iff.mp hk with rfl | ⟨tail, rfl⟩
      -- The group key itself is too short to have the longer one in front.
      · have hlength := hk'.length_le
        simp only [List.length_append, List.length_cons] at hlength
        omega
      · -- Where the shorter key ends, the longer one would go on with a fifth slash.
        have hb := (List.prefix_append_right_inj _).mp hk'
        rw [(List.cons_prefix_cons.mp hb).1, List.count_cons_self] at hcount
        omega

/-- Nothing belongs to two group keys. -/
theorem eq_of_belongsTo {g g' : String} {k : Bytes} (hg : (ObjectKey.parse? g).isSome)
    (hg' : (ObjectKey.parse? g').isSome) (hk : belongsTo k g = true)
    (hk' : belongsTo k g' = true) : g = g' := by
  have hprefix := Bytes.startsWith_iff.mp (startsWith_of_belongsTo hk)
  have hprefix' := Bytes.startsWith_iff.mp (startsWith_of_belongsTo hk')
  apply Utf8.encode_injective
  -- Both group keys are in front of one key, so that one of them is in front of the other.
  rcases List.prefix_or_prefix_of_prefix hprefix hprefix' with ⟨rest, hlong⟩ | ⟨rest, hlong⟩
  · rw [prefix_eq_of_belongsTo hg hg' hk hlong.symm hprefix', List.append_nil] at hlong
    exact hlong
  · rw [prefix_eq_of_belongsTo hg' hg hk' hlong.symm hprefix, List.append_nil] at hlong
    exact hlong.symm

/-- A text that has a member key below it is the group key, or has the group key below it too. -/
theorem below_of_below_member {g uid key : String} (huid : checkUid uid = .ok ())
    (h : Utf8.encode (key ++ "/") <+: Utf8.encode (member g uid)) :
    key = g ∨ Utf8.encode (key ++ "/") <+: Utf8.encode g := by
  rw [encode_append_slash] at h ⊢
  have hgroup : Utf8.encode g ++ [slash] <+: Utf8.encode (member g uid) :=
    ⟨Utf8.encode uid, by rw [encode_member, List.append_assoc, List.singleton_append]⟩
  rcases List.prefix_or_prefix_of_prefix h hgroup with hshort | ⟨rest, hlong⟩
  · rcases List.prefix_concat_iff.mp hshort with heq | hbelow
    · exact .inl (Utf8.encode_injective (List.append_cancel_right heq))
    · exact .inr hbelow
  · rcases List.eq_nil_or_concat rest with rfl | ⟨front, b, rfl⟩
    · rw [List.append_nil] at hlong
      exact .inl (Utf8.encode_injective (List.append_cancel_right hlong)).symm
    · -- The text would end with a slash of the record id, and there is none.
      rw [← hlong, encode_member, List.append_assoc, List.prefix_append_right_inj,
        List.singleton_append, List.cons_prefix_cons] at h
      rw [List.concat_eq_append, ← List.append_assoc] at hlong
      have hb : [b] = [slash] := List.append_inj_right' hlong rfl
      refine absurd (h.2.subset ?_) (slash_notMem_of_checkUid huid)
      simp [List.singleton_inj.mp hb]

theorem slashCount_member (g uid : String) :
    slashCount (member g uid) = slashCount g + 1 + slashCount uid := by
  rw [← count_slash_encode, encode_member, List.count_append, List.count_cons_self, count_slash_encode,
    count_slash_encode]
  omega

/-- A member key has more slashes than a group key. -/
theorem isGroupShaped_member {g : String} (hg : (ObjectKey.parse? g).isSome) (uid : String) :
    isGroupShaped (member g uid) = false := by
  rw [isGroupShaped, slashCount_member, slashCount_of_parse? hg, beq_eq_false_iff_ne]
  omega

/-- Member keys of one group differ in their record ids. -/
theorem member_injective {g uid uid' : String}
    (h : Utf8.encode (member g uid) = Utf8.encode (member g uid')) : uid = uid' := by
  rw [encode_member, encode_member] at h
  exact Utf8.encode_injective (List.cons.inj (List.append_cancel_left h)).2

/-- No member key is a group key. -/
theorem member_ne_group {g g' uid : String} (hg : (ObjectKey.parse? g).isSome)
    (hg' : (ObjectKey.parse? g').isSome) : Utf8.encode (member g uid) ≠ Utf8.encode g' := by
  intro h
  have hshaped := isGroupShaped_member hg uid
  rw [Utf8.encode_injective h, isGroupShaped, slashCount_of_parse? hg'] at hshaped
  cases hshaped

end Key

end ObjectStore
