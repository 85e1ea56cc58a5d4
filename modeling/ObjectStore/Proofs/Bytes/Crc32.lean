import Mathlib.Algebra.Group.Nat.Defs
import ObjectStore.Bytes.Crc32

/-!
# What the checksum tells apart

Shifting is linear in the register and loses nothing, for the polynomial has its highest bit set. From
the first it follows that a look at the table does what eight shifts do, from the second that two
registers that differ go on differing whatever bytes come next. Four bytes at most act on the register
as the one number that they spell, so that different ones leave different registers behind.

Main statements: `feedByte_eq_feedBits` and `eq_of_checksum_eq` (byte strings that differ in four
neighbouring bytes at most have different checksums).
-/

namespace ObjectStore

/-! ## Local changes -/

/-- Two byte strings of one length that agree outside the `count` places from `first` on. -/
structure Bytes.AgreeOutside (first count : Nat) (bs bs' : Bytes) : Prop where
  length_eq : bs'.length = bs.length
  getElem?_eq : ∀ i, i < first ∨ first + count ≤ i → bs'[i]? = bs[i]?

namespace Bytes.AgreeOutside

/-- Replacing one byte changes one place. -/
theorem set (bs : Bytes) (i : Nat) (b : UInt8) : AgreeOutside i 1 bs (bs.set i b) where
  length_eq := List.length_set
  getElem?_eq j hj := List.getElem?_set_ne (by omega)

variable {first count : Nat} {bs bs' : Bytes} (h : AgreeOutside first count bs bs')

include h

theorem take_eq {n : Nat} (hn : n ≤ first) : bs'.take n = bs.take n := by
  refine List.ext_getElem? fun i => ?_
  rw [List.getElem?_take, List.getElem?_take]
  by_cases hi : i < n
  · rw [if_pos hi, if_pos hi, h.getElem?_eq i (.inl (Nat.lt_of_lt_of_le hi hn))]
  · rw [if_neg hi, if_neg hi]

theorem drop_eq {n : Nat} (hn : first + count ≤ n) : bs'.drop n = bs.drop n := by
  refine List.ext_getElem? fun i => ?_
  rw [List.getElem?_drop, List.getElem?_drop, h.getElem?_eq (n + i) (.inr (by omega))]

/-- A front part agrees in the same places. -/
theorem take (n : Nat) : AgreeOutside first count (bs.take n) (bs'.take n) where
  length_eq := by rw [List.length_take, List.length_take, h.length_eq]
  getElem?_eq i hi := by
    rw [List.getElem?_take, List.getElem?_take, h.getElem?_eq i hi]

/-- What lies in the places and around them. -/
theorem exists_split :
    ∃ middle middle', bs = bs.take first ++ middle ++ bs.drop (first + count) ∧
      bs' = bs.take first ++ middle' ++ bs.drop (first + count) ∧
      middle'.length = middle.length ∧ middle.length ≤ count := by
  have hparts : ∀ cs : Bytes,
      cs = cs.take first ++ (cs.drop first).take count ++ cs.drop (first + count) := fun cs => by
    rw [← List.drop_drop, List.append_assoc, List.take_append_drop, List.take_append_drop]
  refine ⟨(bs.drop first).take count, (bs'.drop first).take count, hparts bs, ?_, ?_, ?_⟩
  · rw [← h.take_eq (Nat.le_refl _), ← h.drop_eq (Nat.le_refl _)]
    exact hparts bs'
  · simp only [List.length_take, List.length_drop, h.length_eq]
  · exact List.length_take_le count _

end Bytes.AgreeOutside

namespace Crc32

/-! ## Registers as numbers -/

/-- A number below 256 and a multiple of 256 have no bit in common. -/
theorem add_eq_xor {b : Nat} (hb : b < 256) (n : Nat) : b + 256 * n = b ^^^ 256 * n := by
  have hlow : b < 2 ^ 8 := hb
  show b + 2 ^ 8 * n = b ^^^ 2 ^ 8 * n
  refine Nat.eq_of_testBit_eq fun i => ?_
  rw [Nat.add_comm, Nat.testBit_two_pow_mul_add n hlow, Nat.testBit_xor, Nat.testBit_two_pow_mul]
  by_cases hi : i < 8
  · simp [hi, Nat.not_le_of_lt hi]
  · have hle : 2 ^ 8 ≤ 2 ^ i := Nat.pow_le_pow_right (by decide) (Nat.le_of_not_lt hi)
    simp [hi, Nat.le_of_not_lt hi, Nat.testBit_lt_two_pow (Nat.lt_of_lt_of_le hlow hle)]

theorem lowBit_eq_one_iff (x : UInt32) : x &&& 1 = 1 ↔ x.toNat % 2 = 1 := by
  rw [← UInt32.toNat_inj, UInt32.toNat_and]
  simp [Nat.and_one_is_mod]

theorem toNat_shiftRight_one (x : UInt32) : (x >>> 1).toNat = x.toNat / 2 := by
  rw [UInt32.toNat_shiftRight]
  exact Nat.shiftRight_eq_div_pow x.toNat 1

/-! ## Shifting is linear -/

theorem shiftBit_xor (x y : UInt32) : shiftBit (x ^^^ y) = shiftBit x ^^^ shiftBit y := by
  have hlow : (x ^^^ y).toNat % 2 = 1 ↔ ¬(x.toNat % 2 = 1 ↔ y.toNat % 2 = 1) := by
    rw [UInt32.toNat_xor, Nat.xor_mod_two_eq_one]
  have hcancel : polynomial ^^^ (y >>> 1 ^^^ polynomial) = y >>> 1 := by
    rw [UInt32.xor_comm (y >>> 1), ← UInt32.xor_assoc, UInt32.xor_self, UInt32.zero_xor]
  simp only [shiftBit, lowBit_eq_one_iff, hlow, UInt32.shiftRight_xor]
  by_cases hx : x.toNat % 2 = 1 <;> by_cases hy : y.toNat % 2 = 1
  · rw [if_neg (by omega), if_pos hx, if_pos hy, UInt32.xor_assoc, hcancel]
  · rw [if_pos (by omega), if_pos hx, if_neg hy]
    ac_rfl
  · rw [if_pos (by omega), if_neg hx, if_pos hy, UInt32.xor_assoc]
  · rw [if_neg (by omega), if_neg hx, if_neg hy]

theorem shiftBits_xor (n : Nat) (x y : UInt32) :
    shiftBits n (x ^^^ y) = shiftBits n x ^^^ shiftBits n y := by
  induction n generalizing x y with
  | zero => rfl
  | succ n ih => rw [shiftBits, shiftBit_xor, ih, shiftBits, shiftBits]

theorem shiftBits_add (m n : Nat) (x : UInt32) :
    shiftBits (m + n) x = shiftBits n (shiftBits m x) := by
  induction m generalizing x with
  | zero => rw [Nat.zero_add, shiftBits]
  | succ m ih => rw [Nat.succ_add, shiftBits, ih, shiftBits]

/-- Only the empty register is shifted into the empty one: the polynomial has its highest bit set,
which the shifted register has not. -/
theorem eq_zero_of_shiftBit_eq_zero {x : UInt32} (h : shiftBit x = 0) : x = 0 := by
  have hhalf : (x >>> 1).toNat = x.toNat / 2 := toNat_shiftRight_one x
  have hlt := x.toNat_lt
  unfold shiftBit at h
  split at h
  · have heq := congrArg UInt32.toNat (UInt32.xor_eq_zero_iff.mp h)
    have hpolynomial : polynomial.toNat = 0xEDB88320 := rfl
    omega
  · rename_i hlow
    rw [lowBit_eq_one_iff] at hlow
    rw [h, UInt32.toNat_zero] at hhalf
    exact UInt32.toNat_inj.mp (show x.toNat = 0 by omega)

theorem shiftBit_injective : Function.Injective shiftBit := by
  intro x y h
  rw [← UInt32.xor_eq_zero_iff] at h ⊢
  exact eq_zero_of_shiftBit_eq_zero (by rw [shiftBit_xor, h])

theorem shiftBits_injective (n : Nat) : Function.Injective (shiftBits n) := by
  induction n with
  | zero => exact fun _ _ h => h
  | succ n ih => exact fun _ _ h => shiftBit_injective (ih h)

/-- Bits that are zero are shifted out without a trace. -/
theorem shiftBits_ofNat_mul {n m : Nat} (h : 2 ^ n * m < UInt32.size) :
    shiftBits n (UInt32.ofNat (2 ^ n * m)) = UInt32.ofNat m := by
  induction n with
  | zero => rw [Nat.pow_zero, Nat.one_mul, shiftBits]
  | succ n ih =>
      have hdouble : 2 ^ (n + 1) * m = 2 * (2 ^ n * m) := by
        rw [Nat.pow_succ', Nat.mul_assoc]
      rw [hdouble] at h ⊢
      generalize 2 ^ n * m = k at h ih ⊢
      have hk : k < UInt32.size := by omega
      have hvalue : (UInt32.ofNat (2 * k)).toNat = 2 * k := UInt32.toNat_ofNat_of_lt' h
      have hhalf : shiftBit (UInt32.ofNat (2 * k)) = UInt32.ofNat k := by
        rw [shiftBit, if_neg (by rw [lowBit_eq_one_iff]; omega), ← UInt32.toNat_inj,
          toNat_shiftRight_one, UInt32.toNat_ofNat_of_lt' hk]
        omega
      rw [shiftBits, hhalf, ih hk]

/-! ## The table -/

theorem toNat_shiftRight_eight (x : UInt32) : (x >>> 8).toNat = x.toNat / 256 := by
  rw [UInt32.toNat_shiftRight]
  exact Nat.shiftRight_eq_div_pow x.toNat 8

/-- A register is its lowest byte together with the other three in their places. -/
theorem register_eq (register : UInt32) :
    register = register.toUInt8.toUInt32 ^^^ UInt32.ofNat (256 * (register >>> 8).toNat) := by
  have hbyte : register.toNat % 256 < 256 := Nat.mod_lt _ (by decide)
  have hlow : register.toUInt8.toUInt32 = UInt32.ofNat (register.toNat % 256) := by
    rw [← UInt32.toNat_inj, UInt8.toNat_toUInt32, UInt32.toNat_toUInt8, UInt32.toNat_ofNat_of_lt']
    exact Nat.lt_trans hbyte (by decide)
  rw [hlow, toNat_shiftRight_eight, ← UInt32.ofNat_xor, ← add_eq_xor hbyte, Nat.mod_add_div,
    UInt32.ofNat_toNat]

theorem table_get (b : UInt8) : table[b.toFin] = shiftBits 8 b.toUInt32 := by
  unfold table
  rw [Fin.getElem_fin, Vector.getElem_ofFn]
  exact congrArg (shiftBits 8) (UInt32.ofNat_uInt8ToNat b)

/-- One look at the table does what eight shifts do: they bring the lowest byte to its word in the
table and move the other three bytes down. -/
theorem feedByte_eq_feedBits (register : UInt32) (b : UInt8) :
    feedByte register b = feedBits register b := by
  have hlt := register.toNat_lt
  have hmove : shiftBits 8 (UInt32.ofNat (256 * (register >>> 8).toNat)) = register >>> 8 := by
    have hfits : 2 ^ 8 * (register >>> 8).toNat < UInt32.size := by
      rw [toNat_shiftRight_eight]
      show _ < 2 ^ 32
      omega
    rw [show 256 = 2 ^ 8 from rfl, shiftBits_ofNat_mul hfits, UInt32.ofNat_toNat]
  have hsplit : register ^^^ b.toUInt32 =
      UInt32.ofNat (256 * (register >>> 8).toNat) ^^^ (register.toUInt8 ^^^ b).toUInt32 := by
    rw [UInt8.toUInt32_xor, ← UInt32.xor_assoc, UInt32.xor_comm (UInt32.ofNat _), ← register_eq]
  rw [feedBits, feedByte, hsplit, shiftBits_xor, hmove, table_get]

/-! ## Runs of bytes -/

theorem foldl_feedByte_eq (bs : Bytes) (register : UInt32) :
    bs.foldl feedByte register = bs.foldl feedBits register := by
  have heq : feedByte = feedBits := funext fun register => funext (feedByte_eq_feedBits register)
  rw [heq]

/-- Whatever bytes come after them, two different registers stay different. -/
theorem foldl_feedBits_injective (bs : Bytes) : Function.Injective (bs.foldl feedBits) := by
  induction bs with
  | nil => exact fun _ _ h => h
  | cons b bs ih =>
      intro register register' h
      exact (UInt32.xor_left_inj _).mp (shiftBits_injective 8 (ih h))

/-- Four bytes at most spell a number that a register can hold. -/
theorem ofLittleEndian_lt_of_length_le {bs : Bytes} (h : bs.length ≤ 4) :
    Bytes.ofLittleEndian bs < UInt32.size :=
  Nat.lt_of_lt_of_le (Bytes.ofLittleEndian_lt bs) (Bytes.capacity_mono h)

/-- Four bytes at most act on the register as the one number that they spell. -/
theorem foldl_feedBits_eq_shiftBits {bs : Bytes} (h : bs.length ≤ 4) (register : UInt32) :
    bs.foldl feedBits register =
      shiftBits (8 * bs.length) (register ^^^ UInt32.ofNat (Bytes.ofLittleEndian bs)) := by
  induction bs generalizing register with
  | nil => simp [shiftBits, Bytes.ofLittleEndian]
  | cons b bs ih =>
      have hfits : 2 ^ 8 * Bytes.ofLittleEndian bs < UInt32.size := by
        have hspelled := ofLittleEndian_lt_of_length_le h
        rw [Bytes.ofLittleEndian] at hspelled
        omega
      -- What the later bytes spell stands eight places higher before the first byte is shifted out.
      have hmove : shiftBits 8 (UInt32.ofNat (256 * Bytes.ofLittleEndian bs)) =
          UInt32.ofNat (Bytes.ofLittleEndian bs) :=
        shiftBits_ofNat_mul hfits
      rw [List.foldl_cons, ih (Nat.le_of_succ_le h), Bytes.ofLittleEndian, add_eq_xor b.toNat_lt,
        UInt32.ofNat_xor, UInt32.ofNat_uInt8ToNat, List.length_cons, Nat.mul_succ,
        Nat.add_comm (8 * bs.length), shiftBits_add, ← UInt32.xor_assoc, shiftBits_xor 8, hmove,
        feedBits]

/-- Runs of four bytes at most that leave the same register are the same. -/
theorem eq_of_foldl_feedBits_eq {bs bs' : Bytes} (hlength : bs'.length = bs.length)
    (hfour : bs.length ≤ 4) {register : UInt32}
    (h : bs.foldl feedBits register = bs'.foldl feedBits register) : bs = bs' := by
  have hfour' : bs'.length ≤ 4 := hlength ▸ hfour
  rw [foldl_feedBits_eq_shiftBits hfour, foldl_feedBits_eq_shiftBits hfour', hlength] at h
  have hnumber := congrArg UInt32.toNat ((UInt32.xor_right_inj _).mp (shiftBits_injective _ h))
  rw [UInt32.toNat_ofNat_of_lt' (ofLittleEndian_lt_of_length_le hfour),
    UInt32.toNat_ofNat_of_lt' (ofLittleEndian_lt_of_length_le hfour')] at hnumber
  rw [← Bytes.littleEndian_ofLittleEndian bs, ← Bytes.littleEndian_ofLittleEndian bs', hnumber,
    hlength]

/-- A checksum tells byte strings apart that differ in four neighbouring bytes at most. -/
theorem eq_of_checksum_eq {first count : Nat} {bs bs' : Bytes}
    (h : Bytes.AgreeOutside first count bs bs') (hcount : count ≤ 4)
    (hsum : checksum bs' = checksum bs) : bs' = bs := by
  obtain ⟨middle, middle', hbs, hbs', hlength, hle⟩ := h.exists_split
  generalize bs.take first = front at hbs hbs'
  generalize bs.drop (first + count) = rest at hbs hbs'
  subst hbs hbs'
  unfold checksum at hsum
  rw [UInt32.not_inj, foldl_feedByte_eq, foldl_feedByte_eq] at hsum
  simp only [List.foldl_append] at hsum
  have hmiddle : middle = middle' :=
    eq_of_foldl_feedBits_eq hlength (Nat.le_trans hle hcount)
      (foldl_feedBits_injective rest hsum.symm)
  rw [hmiddle]

end Crc32

end ObjectStore
