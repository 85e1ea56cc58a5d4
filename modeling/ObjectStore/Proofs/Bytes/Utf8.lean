import ObjectStore.Bytes.Utf8

/-!
# What lossy reading makes of texts

The UTF-8 form of a text is the forms of its characters, one after the other. Each form is a lead byte with
all the bytes that may follow it, so that lossy reading takes it as one part and finds the character.

Main statement: `lossy_encode`.
-/

namespace ObjectStore.Utf8

/-- The form of a text is the forms of its characters. -/
theorem encode_eq_flatMap (s : String) : encode s = s.toList.flatMap String.utf8EncodeChar := by
  have h : s.toList.utf8Encode = s.toByteArray := String.utf8Encode_toList
  show s.toByteArray.data.toList = _
  rw [← h]
  simp [List.utf8Encode]

/-- A letter of one byte, so many times. -/
theorem encode_replicate {letter : Char} {b : UInt8} (h : String.utf8EncodeChar letter = [b]) (n : Nat) :
    encode (String.ofList (List.replicate n letter)) = List.replicate n b := by
  rw [encode_eq_flatMap, String.toList_ofList]
  induction n with
  | zero => rfl
  | succ n ih =>
    rw [List.replicate_succ, List.flatMap_cons, ih, h, List.replicate_succ]
    rfl

/-! ## Complete parts -/

/-- A lead byte and as many bytes as may follow it. -/
structure Part (lead : UInt8) (tail : Bytes) : Prop where
  /-- Whatever comes behind, the part ends where the tail ends. -/
  complete : ∃ n low high, following? lead = some (n, low, high) ∧ tail.length = n ∧
    ∀ rest, tails n low high (tail ++ rest) = tail

theorem lossyChars_of_part {lead : UInt8} {tail : Bytes} (h : Part lead tail) (rest : Bytes) :
    lossyChars (lead :: tail ++ rest) = assemble lead tail :: lossyChars rest := by
  obtain ⟨_, low, high, hfollowing, rfl, htails⟩ := h.complete
  rw [List.cons_append, lossyChars, hfollowing]
  simp only [htails rest, if_true, List.drop_left]

/-! ## Bytes by their numbers -/

theorem le_ofNat_iff {a : UInt8} {n : Nat} (hn : n < 256) : a ≤ UInt8.ofNat n ↔ a.toNat ≤ n := by
  rw [UInt8.le_iff_toNat_le, UInt8.toNat_ofNat_of_lt' hn]

theorem ofNat_le_iff {a : UInt8} {n : Nat} (hn : n < 256) : UInt8.ofNat n ≤ a ↔ n ≤ a.toNat := by
  rw [UInt8.le_iff_toNat_le, UInt8.toNat_ofNat_of_lt' hn]

theorem ofNat_lt_iff {a : UInt8} {n : Nat} (hn : n < 256) : UInt8.ofNat n < a ↔ n < a.toNat := by
  rw [UInt8.lt_iff_toNat_lt, UInt8.toNat_ofNat_of_lt' hn]

theorem ofNat_eq_iff {a : UInt8} {n : Nat} (hn : n < 256) : UInt8.ofNat n = a ↔ n = a.toNat := by
  rw [← UInt8.toNat_inj, UInt8.toNat_ofNat_of_lt' hn]

/-- What may follow a lead byte, by the number of the byte. -/
theorem following?_ofNat {n : Nat} (hn : n < 256) :
    following? (UInt8.ofNat n) =
      if n < 128 then some (0, 0x80, 0xBF)
      else if n < 194 then none
      else if n < 224 then some (1, 0x80, 0xBF)
      else if n = 224 then some (2, 0xA0, 0xBF)
      else if n = 237 then some (2, 0x80, 0x9F)
      else if n < 240 then some (2, 0x80, 0xBF)
      else if n = 240 then some (3, 0x90, 0xBF)
      else if n < 244 then some (3, 0x80, 0xBF)
      else if n = 244 then some (3, 0x80, 0x8F)
      else none := by
  unfold following?
  simp only [ofNat_lt_iff hn, ofNat_eq_iff hn, UInt8.reduceToNat]

/-- The lead bytes of three: two of them narrow down what may follow. -/
theorem following?_three {n : Nat} (hlow : 224 ≤ n) (hhigh : n < 240) :
    ∃ low high, following? (UInt8.ofNat n) = some (2, low, high) ∧
      low.toNat = (if n = 224 then 160 else 128) ∧ high.toNat = if n = 237 then 159 else 191 := by
  rw [following?_ofNat (by omega), if_neg (by omega), if_neg (by omega), if_neg (by omega)]
  by_cases h₁ : n = 224
  · exact ⟨0xA0, 0xBF, by simp [h₁], by simp [h₁], by simp [h₁]⟩
  by_cases h₂ : n = 237
  · exact ⟨0x80, 0x9F, by simp [h₂], by simp [h₂], by simp [h₂]⟩
  · exact ⟨0x80, 0xBF, by simp [h₁, h₂, hhigh], by simp [h₁], by simp [h₂]⟩

/-- The lead bytes of four: the first and the last of them narrow down what may follow. -/
theorem following?_four {n : Nat} (hlow : 240 ≤ n) (hhigh : n ≤ 244) :
    ∃ low high, following? (UInt8.ofNat n) = some (3, low, high) ∧
      low.toNat = (if n = 240 then 144 else 128) ∧ high.toNat = if n = 244 then 143 else 191 := by
  rw [following?_ofNat (by omega), if_neg (by omega), if_neg (by omega), if_neg (by omega),
    if_neg (by omega), if_neg (by omega), if_neg (by omega)]
  by_cases h₁ : n = 240
  · exact ⟨0x90, 0xBF, by simp [h₁], by simp [h₁], by simp [h₁]⟩
  by_cases h₂ : n = 244
  · exact ⟨0x80, 0x8F, by simp [h₂], by simp [h₂], by simp [h₂]⟩
  · exact ⟨0x80, 0xBF, by simp [h₁, show n < 244 by omega], by simp [h₁], by simp [h₂]⟩

/-! ## Characters -/

/-- A byte that may follow is taken. -/
theorem tails_cons {k n : Nat} {low high : UInt8} (hn : n < 256) (hlow : low.toNat ≤ n)
    (hhigh : n ≤ high.toNat) (rest : Bytes) :
    tails (k + 1) low high (UInt8.ofNat n :: rest) = UInt8.ofNat n :: tails k 0x80 0xBF rest := by
  rw [tails, if_pos ⟨(le_ofNat_iff hn).mpr hlow, (ofNat_le_iff hn).mpr hhigh⟩]

/-- Of the bytes after the first that follows, each has six bits of the character. -/
theorem tails_cons_six (k n : Nat) (rest : Bytes) :
    tails (k + 1) 0x80 0xBF (UInt8.ofNat (n % 64 + 128) :: rest) =
      UInt8.ofNat (n % 64 + 128) :: tails k 0x80 0xBF rest :=
  tails_cons (by omega) (by simp) (by simp; omega) rest

theorem tails_zero (low high : UInt8) (rest : Bytes) : tails 0 low high rest = [] := by
  rw [tails]
  rintro _ _ _ ⟨⟩

/-- The form of a character is complete, and it spells the character. -/
theorem part_utf8EncodeChar (c : Char) :
    ∃ lead tail, String.utf8EncodeChar c = lead :: tail ∧ Part lead tail ∧ assemble lead tail = c := by
  have hc : Char.ofNat c.val.toNat = c := Char.ofNat_toNat c
  have hvalid : c.val.toNat < 55296 ∨ 57343 < c.val.toNat ∧ c.val.toNat < 1114112 := c.valid
  unfold String.utf8EncodeChar
  generalize c.val.toNat = n at hc hvalid
  rw [← hc]
  simp only
  split
  · refine ⟨_, _, rfl, ⟨0, 0x80, 0xBF, ?_, rfl, fun rest => tails_zero _ _ _⟩, ?_⟩
    · rw [following?_ofNat (by omega), if_pos (by omega)]
    · simp only [assemble, List.length_nil, List.foldl_nil, UInt8.toNat_ofNat']
      congr 1
      omega
  split
  · refine ⟨_, _, rfl, ⟨1, 0x80, 0xBF, ?_, rfl, fun rest => ?_⟩, ?_⟩
    · rw [following?_ofNat (by omega), if_neg (by omega), if_neg (by omega), if_pos (by omega)]
    · rw [List.cons_append, tails_cons_six, tails_zero]
    · simp only [assemble, List.length_cons, List.length_nil, List.foldl_cons, List.foldl_nil,
        UInt8.toNat_ofNat']
      congr 1
      omega
  split
  · -- What is left out are numbers that a shorter form would spell, and the surrogates.
    obtain ⟨low, high, hfollowing, hlow, hhigh⟩ :=
      @following?_three (n / 4096 % 16 + 224) (by omega) (by omega)
    refine ⟨_, _, rfl, ⟨2, low, high, hfollowing, rfl, fun rest => ?_⟩, ?_⟩
    · rw [List.cons_append, tails_cons (by omega) (by rw [hlow]; split <;> omega)
        (by rw [hhigh]; split <;> omega), List.cons_append, tails_cons_six, tails_zero]
    · simp only [assemble, List.length_cons, List.length_nil, List.foldl_cons, List.foldl_nil,
        UInt8.toNat_ofNat']
      congr 1
      omega
  · -- What is left out are numbers that a shorter form would spell, and those above all characters.
    obtain ⟨low, high, hfollowing, hlow, hhigh⟩ :=
      @following?_four (n / 262144 % 8 + 240) (by omega) (by omega)
    refine ⟨_, _, rfl, ⟨3, low, high, hfollowing, rfl, fun rest => ?_⟩, ?_⟩
    · rw [List.cons_append, tails_cons (by omega) (by rw [hlow]; split <;> omega)
        (by rw [hhigh]; split <;> omega), List.cons_append, tails_cons_six, List.cons_append,
        tails_cons_six, tails_zero]
    · simp only [assemble, List.length_cons, List.length_nil, List.foldl_cons, List.foldl_nil,
        UInt8.toNat_ofNat']
      congr 1
      omega

/-! ## Texts -/

theorem lossyChars_flatMap (cs : List Char) : lossyChars (cs.flatMap String.utf8EncodeChar) = cs := by
  induction cs with
  | nil => rw [List.flatMap_nil, lossyChars]
  | cons c cs ih =>
      obtain ⟨lead, tail, hform, hpart, hc⟩ := part_utf8EncodeChar c
      rw [List.flatMap_cons, hform, lossyChars_of_part hpart, hc, ih]

/-- Nothing is lost of a text. -/
@[simp]
theorem lossy_encode (s : String) : lossy (encode s) = s := by
  rw [lossy, encode_eq_flatMap, lossyChars_flatMap, String.ofList_toList]

end ObjectStore.Utf8
