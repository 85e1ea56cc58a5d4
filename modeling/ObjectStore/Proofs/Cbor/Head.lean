import ObjectStore.Cbor.Read
import ObjectStore.Proofs.Bytes.Takes

/-!
# What heads, numbers, texts and names read as

The shortest form of each head reads back as that head, and what a head opens reads back as what was
written: numbers, texts and the names of fields and variants.

Main statement: `takes_read_write`, for every head that carries an argument.
-/

namespace ObjectStore.Cbor

open Reader (Takes)

/-! ## Heads -/

namespace Head

/-- Up to form `27` the form of an argument says nothing about the head, simple values apart. -/
theorem ofParts?_of_form_lt {major form : Nat} (hmajor : major < 7) (hform : form < 28) (n : Nat) :
    ofParts? major form n = ofParts? major 0 n := by
  have h31 : form ≠ 31 := by omega
  have h28 : ¬ 28 ≤ form := by omega
  match major, hmajor with
  | 0, _ | 1, _ | 2, _ | 3, _ | 4, _ | 5, _ | 6, _ =>
    unfold ofParts?
    rw [if_neg h31, if_neg h28]
    rfl

/-- A head with an argument reads back. -/
theorem takes_read_write {major n : Nat} {h : Head} (hmajor : major < 7) (hn : n < UInt64.size)
    (hh : ofParts? major 0 n = some h) : read.Takes (write major n) h := by
  intro rest
  -- Whatever form the writer has chosen, the argument is the same.
  obtain ⟨form, hform, -, -, hread⟩ := read_write (show major < 8 by omega) hn rest
  rw [hread, ofParts?_of_form_lt hmajor hform, hh]
  rfl

/-- The head of a simple value below `24` reads back. -/
theorem takes_read_simple {n : Nat} (hn : n < 24) : read.Takes (write 7 n) (.simple n) := by
  intro rest
  have hsize : n < UInt64.size := Nat.lt_trans hn (by decide)
  obtain ⟨form, hform, hshort, -, hread⟩ := read_write (show 7 < 8 by decide) hsize rest
  -- For major type seven the form does matter: from `25` on it stands for a floating-point number.
  have hparts : ofParts? 7 form n = some (.simple n) := by
    rw [hshort hn]
    unfold ofParts?
    rw [if_neg (by omega), if_neg (by omega)]
    exact if_pos (by omega)
  rw [hread, hparts]
  rfl

/-- A head that is no tag ends a row of tags. -/
theorem takes_skipTags {h : Head} (hh : ∀ n, h ≠ .tag n) : (skipTags h).Takes [] h := by
  refine Takes.loop ?_
  cases h with
  | tag n => exact absurd rfl (hh n)
  | _ => exact Takes.pure _

end Head

/-! ## Numbers -/

theorem takes_integerAfter_unsigned (n : Nat) : (integerAfter (.unsigned n)).Takes [] (n : Int) :=
  Takes.loop (Takes.pure _)

theorem takes_integerAfter_negative (n : Nat) :
    (integerAfter (.negative n)).Takes [] (-1 - (n : Int)) :=
  Takes.loop (Takes.pure _)

/-- The head that an integer is written with. -/
def Head.ofInt (n : Int) : Head :=
  if 0 ≤ n then .unsigned n.toNat else .negative (-1 - n).toNat

theorem takes_read_writeInt {n : Int} (hlow : -(UInt64.size : Int) ≤ n) (hhigh : n < UInt64.size) :
    Head.read.Takes (writeInt n) (Head.ofInt n) := by
  unfold writeInt Head.ofInt
  -- A natural number is its own argument, and a negative one is counted down from `-1`.
  by_cases h : 0 ≤ n
  · rw [if_pos h, if_pos h]
    exact Head.takes_read_write (by decide) (by omega) rfl
  · rw [if_neg h, if_neg h]
    exact Head.takes_read_write (by decide) (by omega) rfl

theorem takes_integerAfter_ofInt (n : Int) : (integerAfter (Head.ofInt n)).Takes [] n := by
  unfold Head.ofInt
  by_cases h : 0 ≤ n
  · rw [if_pos h]
    have hn : ((n.toNat : Nat) : Int) = n := Int.toNat_of_nonneg h
    simpa only [hn] using takes_integerAfter_unsigned n.toNat
  · rw [if_neg h]
    have hn : -1 - (((-1 - n).toNat : Nat) : Int) = n := by omega
    simpa only [hn] using takes_integerAfter_negative (-1 - n).toNat

/-- Every integer of a number type has a head of 64 bits. -/
theorem Word.bounds (w : Word) : -(UInt64.size : Int) ≤ w.low ∧ w.bound ≤ UInt64.size := by
  cases w <;> decide

/-! ## Texts and names -/

theorem takes_textContent (s : String) :
    (textContent (some s.utf8ByteSize)).Takes (Utf8.encode s) s := by
  have htake : (Reader.take s.utf8ByteSize).Takes (Utf8.encode s) (Utf8.encode s) := by
    rw [← Utf8.length_encode]
    exact Takes.take _
  exact htake.bind_nil (Takes.ofOption (Utf8.decode?_encode s))

theorem takes_textAfter (s : String) :
    (textAfter (.text (some s.utf8ByteSize))).Takes (Utf8.encode s) s :=
  (Head.takes_skipTags (by simp)).nil_bind (takes_textContent s)

theorem takes_read_text {s : String} (hs : s.utf8ByteSize < UInt64.size) :
    Head.read.Takes (Head.write 3 s.utf8ByteSize) (.text (some s.utf8ByteSize)) :=
  Head.takes_read_write (by decide) hs rfl

/-- A name that is not too long reads as its bytes. -/
theorem takes_nameAfter {name : String} (hname : name.utf8ByteSize ≤ nameLimit) :
    (nameAfter (.text (some name.utf8ByteSize))).Takes (Utf8.encode name) (Utf8.encode name) := by
  have htake : (Reader.take name.utf8ByteSize).Takes (Utf8.encode name) (Utf8.encode name) := by
    rw [← Utf8.length_encode]
    exact Takes.take _
  unfold nameAfter
  simp only [if_neg (Nat.not_lt.mpr hname)]
  exact htake.bind_nil ((Takes.ofOption (Utf8.decode?_encode name)).nil_bind (Takes.pure _))

theorem takes_readName {name : String} (hname : name.utf8ByteSize ≤ nameLimit) :
    readName.Takes (writeText name) (Utf8.encode name) := by
  have hsize : name.utf8ByteSize < UInt64.size := Nat.lt_of_le_of_lt hname (by decide)
  have huntagged : Head.readUntagged.Takes (Head.write 3 name.utf8ByteSize)
      (.text (some name.utf8ByteSize)) :=
    (takes_read_text hsize).bind_nil (Head.takes_skipTags (by simp))
  exact huntagged.bind (takes_nameAfter hname)

end ObjectStore.Cbor
