import Mathlib.Data.List.Perm.Basic
import ObjectStore.Proofs.Cbor.Items
import ObjectStore.Proofs.Cbor.Plain

/-!
# Spellings of a value

The fields of a record may come in any order, and between them there may be entries that are none of its
fields. `Shape.Spells` says which bytes spell a value so, at every record that is part of the value. The
bytes that the writer of values gives are one spelling (`Shape.spells_write`).

Main statement: `Shape.reads_of_spells`, that all spellings of a value read as the value.
-/

namespace ObjectStore.Cbor

open Reader (Takes Answers)

/-! ## Spellings -/

/-- The bytes are an entry of a record's map that is none of its fields: a name, which is a text of known
length and not too long, and some content. -/
def IsExtra (content : Bytes → Prop) (names : List String) (entry : Bytes) : Prop :=
  ∃ (n : Argument) (name : String) (item : Bytes), n.value = name.utf8ByteSize ∧
    name.utf8ByteSize ≤ nameLimit ∧ name ∉ names ∧ content item ∧
    entry = n.write 3 ++ Utf8.encode name ++ item

mutual

/-- The bytes spell the value: as it is written, but for the order of the fields of each record and for
extra entries between them. What is in these may depend on how many levels of nesting are left. -/
def Shape.Spells (content : Nat → Bytes → Prop) : (s : Shape) → (depth : Nat) → s.Val → Bytes → Prop
  | .word w, _, n, bs => bs = writeInt (w.toInt n)
  | .bool, _, b, bs => bs = Shape.bool.write b
  | .text, _, s, bs => bs = writeText s
  | .list element, depth, vs, bs =>
    ∃ parts, List.Forall₂ (fun p v => element.Spells content (depth - 1) v p) parts vs ∧
      bs = Head.write 4 vs.length ++ parts.flatten
  | .dict value, depth, m, bs =>
    ∃ parts, List.Forall₂
        (fun p e => ∃ q, p = writeText e.1 ++ q ∧ value.Spells content (depth - 1) e.2 q)
        parts m.entries ∧
      bs = Head.write 5 m.entries.length ++ parts.flatten
  | .option _, _, none, bs => bs = Head.write 7 22
  | .option value, depth, some v, bs => value.Spells content depth v bs
  | .pair first second, depth, (a, b), bs =>
    ∃ p q, first.Spells content (depth - 1) a p ∧ second.Spells content (depth - 1) b q ∧
      bs = Head.write 4 2 ++ (p ++ q)
  | .record fields, depth, vs, bs =>
    ∃ (own extra parts : List Bytes) (n : Argument), fields.SpellEach content (depth - 1) vs own ∧
      (∀ e ∈ extra, IsExtra (content (depth - 1)) fields.names e) ∧ parts.Perm (own ++ extra) ∧
      n.value = parts.length ∧ bs = n.write 5 ++ parts.flatten
  | .choice variants, depth, v, bs => variants.Spells content (depth - 1) v bs

/-- There is one entry for each field, in order, and it spells the value of the field. -/
def Fields.SpellEach (content : Nat → Bytes → Prop) :
    (fs : Fields) → (depth : Nat) → fs.Vals → List Bytes → Prop
  | .nil, _, _, own => own = []
  | .cons name shape rest, depth, (v, vs), own =>
    ∃ p later, own = (writeText name ++ p) :: later ∧ shape.Spells content depth v p ∧
      rest.SpellEach content depth vs later

/-- The bytes spell the variant and its payload. -/
def Variants.Spells (content : Nat → Bytes → Prop) :
    (vs : Variants) → (depth : Nat) → vs.Val → Bytes → Prop
  | .unit name _, _, .inl _, bs => bs = writeText name
  | .unit _ rest, depth, .inr v, bs => rest.Spells content depth v bs
  | .payload name shape _, depth, .inl v, bs =>
    ∃ p, shape.Spells content depth v p ∧ bs = Head.write 5 1 ++ writeText name ++ p
  | .payload _ _ rest, depth, .inr v, bs => rest.Spells content depth v bs

end

/-! ## Written values -/

/-- What is written for each field. -/
def Fields.parts : (fs : Fields) → fs.Vals → List Bytes
  | .nil, _ => []
  | .cons name shape rest, (v, vs) => (writeText name ++ shape.write v) :: rest.parts vs

theorem Fields.length_parts (fs : Fields) (vs : fs.Vals) : (fs.parts vs).length = fs.length := by
  match fs, vs with
  | .nil, _ => rfl
  | .cons _ _ rest, (_, vs) => rw [parts, List.length_cons, Fields.length_parts rest vs, length]

theorem Fields.flatten_parts (fs : Fields) (vs : fs.Vals) : (fs.parts vs).flatten = fs.write vs := by
  match fs, vs with
  | .nil, _ => rfl
  | .cons _ _ rest, (_, vs) => rw [parts, List.flatten_cons, Fields.flatten_parts rest vs, write]

mutual

/-- What is written for a value is a spelling of it. -/
theorem Shape.spells_write (content : Nat → Bytes → Prop) (s : Shape) (depth : Nat) (hplain : s.isPlain)
    (v : s.Val) (hv : s.fits v) : s.Spells content depth v (s.write v) := by
  match s, v with
  | .word w, v => rfl
  | .bool, b => rfl
  | .text, s => rfl
  | .list element, vs =>
    simp only [Shape.fits, Bool.and_eq_true, decide_eq_true_eq, List.all_eq_true] at hv
    refine ⟨vs.map element.write, ?_, by rw [Shape.write, List.flatMap_def]⟩
    exact List.forall₂_map_left_iff.mpr (List.forall₂_same.mpr fun v hmem =>
      Shape.spells_write content element (depth - 1) hplain v (hv.2 v hmem))
  | .dict value, m =>
    simp only [Shape.fits, Bool.and_eq_true, decide_eq_true_eq, List.all_eq_true] at hv
    refine ⟨m.entries.map fun e => writeText e.1 ++ value.write e.2, ?_,
      by rw [Shape.write, List.flatMap_def]⟩
    exact List.forall₂_map_left_iff.mpr (List.forall₂_same.mpr fun e hmem =>
      ⟨_, rfl, Shape.spells_write content value (depth - 1) hplain e.2 (hv.2 e hmem).2⟩)
  | .option value, none => rfl
  | .option value, some v =>
    simp only [Shape.isPlain, Bool.and_eq_true] at hplain
    exact Shape.spells_write content value depth hplain.2 v hv
  | .pair first second, (a, b) =>
    simp only [Shape.isPlain, Bool.and_eq_true] at hplain
    simp only [Shape.fits, Bool.and_eq_true] at hv
    exact ⟨_, _, Shape.spells_write content first (depth - 1) hplain.1 a hv.1,
      Shape.spells_write content second (depth - 1) hplain.2 b hv.2,
      by rw [Shape.write, List.append_assoc]⟩
  | .record fields, vs =>
    simp only [Shape.isPlain, Bool.and_eq_true, decide_eq_true_eq] at hplain
    obtain ⟨n, hn, hhead⟩ := Argument.exists_write_eq hplain.2
    -- There is no extra entry and the fields are in their order.
    refine ⟨fields.parts vs, [], fields.parts vs, n,
      Fields.spellEach_parts content fields (depth - 1) hplain.1 vs hv, by simp, by simp, ?_, ?_⟩
    · rw [hn, Fields.length_parts]
    · rw [Shape.write, hhead, Fields.flatten_parts]
  | .choice variants, v => exact Variants.spells_write content variants (depth - 1) hplain v hv

/-- What is written for the fields of a record is one entry for each. -/
theorem Fields.spellEach_parts (content : Nat → Bytes → Prop) (fs : Fields) (depth : Nat)
    (hplain : fs.isPlain) (vs : fs.Vals) (hvs : fs.fits vs) :
    fs.SpellEach content depth vs (fs.parts vs) := by
  match fs, vs with
  | .nil, () => rfl
  | .cons name shape rest, (v, vs) =>
    simp only [Fields.isPlain, Bool.and_eq_true] at hplain
    simp only [Fields.fits, Bool.and_eq_true] at hvs
    have hvalue := Shape.spells_write content shape depth hplain.1.2 v hvs.1
    have hlater := Fields.spellEach_parts content rest depth hplain.2 vs hvs.2
    exact ⟨shape.write v, rest.parts vs, rfl, hvalue, hlater⟩

/-- What is written for a variant is a spelling of it. -/
theorem Variants.spells_write (content : Nat → Bytes → Prop) (vs : Variants) (depth : Nat)
    (hplain : vs.isPlain) (v : vs.Val) (hv : vs.fits v) : vs.Spells content depth v (vs.write v) := by
  match vs, v with
  | .unit name rest, .inl () => rfl
  | .unit name rest, .inr v =>
    simp only [Variants.isPlain, Bool.and_eq_true] at hplain
    exact Variants.spells_write content rest depth hplain.2 v hv
  | .payload name shape rest, .inl v =>
    simp only [Variants.isPlain, Bool.and_eq_true] at hplain
    exact ⟨_, Shape.spells_write content shape depth hplain.1.2 v hv, rfl⟩
  | .payload name shape rest, .inr v =>
    simp only [Variants.isPlain, Bool.and_eq_true] at hplain
    exact Variants.spells_write content rest depth hplain.2 v hv

end

/-- An entry may be written like those of the fields. -/
theorem IsExtra.of_writeText {content : Bytes → Prop} {names : List String} {name : String} {item : Bytes}
    (hlen : name.utf8ByteSize ≤ nameLimit) (hname : name ∉ names) (hitem : content item) :
    IsExtra content names (writeText name ++ item) := by
  obtain ⟨n, hn, hwrite⟩ := Argument.exists_write_eq (Nat.lt_of_le_of_lt hlen (by decide))
  exact ⟨n, name, item, hn, hlen, hname, hitem, by rw [hwrite, writeText]⟩

/-- What is written for a record, but with the fields in reverse order and an extra entry in front. -/
def Fields.writeWith (fs : Fields) (entry : Bytes) (vs : fs.Vals) : Bytes :=
  Head.write 5 (fs.length + 1) ++ (entry :: (fs.parts vs).reverse).flatten

theorem Shape.spells_writeWith {content : Nat → Bytes → Prop} {fields : Fields} {depth : Nat}
    {entry : Bytes} {vs : fields.Vals} (hplain : (Shape.record fields).isPlain) (hvs : fields.fits vs)
    (hlength : fields.length + 1 < UInt64.size) (hentry : IsExtra (content depth) fields.names entry) :
    (Shape.record fields).Spells content (depth + 1) vs (fields.writeWith entry vs) := by
  simp only [Shape.isPlain, Bool.and_eq_true] at hplain
  obtain ⟨n, hn, hhead⟩ := Argument.exists_write_eq hlength
  refine ⟨fields.parts vs, [entry], entry :: (fields.parts vs).reverse, n,
    Fields.spellEach_parts content fields depth hplain.1 vs hvs, by simpa using hentry, ?_, ?_, ?_⟩
  · exact (List.Perm.cons entry (List.reverse_perm _)).trans (List.perm_append_singleton _ _).symm
  · rw [hn, List.length_cons, List.length_reverse, Fields.length_parts]
  · rw [Fields.writeWith, hhead]

/-! ## Reading a spelling -/

/-- An entry that is none of the fields is passed over. -/
theorem IsExtra.takes {fs : Fields} {depth : Nat} {entry : Bytes}
    (h : IsExtra (Item .readable depth) fs.names entry) :
    (fs.anEntry depth).Takes entry fs.noField := by
  obtain ⟨n, name, item, hn, hlen, hname, hitem, rfl⟩ := h
  have hnone := Fields.answers_noField (o := some ()) hname hitem.takes_skipItem
  exact (n.takes_readName hn hlen).bind hnone

/-- The entries of a record's map are taken one by one, and what they come to depends neither on their
order nor on the extra ones among them. -/
theorem Fields.answers_entries {fs : Fields} {depth : Nat} {own extra parts : List Bytes}
    {es : List fs.Entry} (hown : List.Forall₂ (fun p e => fs.Reads depth p (some e)) own es)
    (hextra : ∀ e ∈ extra, IsExtra (Item .readable depth) fs.names e)
    (hparts : parts.Perm (own ++ extra)) :
    (fs.theValues depth parts.length).Answers parts.flatten (fs.collect? es) := by
  have hnone : List.Forall₂ (fs.anEntry depth).Takes extra (extra.map fun _ => fs.noField) :=
    List.forall₂_map_right_iff.mpr (List.forall₂_same.mpr fun e he => (hextra e he).takes)
  have hall := List.rel_append (hown.imp fun _ _ h => h.answers) hnone
  obtain ⟨es', htakes, hperm⟩ := List.perm_comp_forall₂ hparts hall
  have hcollect : fs.collect? es' = fs.collect? es := by
    rw [Fields.collect?_perm hperm, List.map_const', Fields.collect?_append_noField]
  have htimes := Takes.times_of_forall₂ htakes fun _ _ _ h => h
  rw [List.map_id', ← htakes.length_eq] at htimes
  rw [← hcollect]
  exact .bind_ofOption htimes

/-- The head of a record's map is followed by its entries and nothing else. -/
theorem Shape.reads_record {fields : Fields} {depth : Nat} {n : Argument} {parts : List Bytes}
    {o : Option fields.Vals} (hn : n.value = parts.length)
    (h : (fields.theValues depth parts.length).Answers parts.flatten o) :
    (Shape.record fields).Reads (depth + 1) (n.write 5 ++ parts.flatten) o := by
  refine ⟨.map (some n.value), n.write 5, parts.flatten, rfl, n.takes_read_length (by decide) rfl, ?_,
    by simp⟩
  refine .after_nil (Head.takes_skipTags (by simp)) ?_
  rw [hn]
  exact h

mutual

/-- A spelling of a value reads as the value, if nesting leaves room for the shape. -/
theorem Shape.reads_of_spells (s : Shape) (depth : Nat) (hdepth : s.depth ≤ depth) (hplain : s.isPlain)
    (v : s.Val) (hv : s.fits v) {bs : Bytes} (h : s.Spells (Item .readable) depth v bs) :
    s.Reads depth bs (some v) := by
  match s, v with
  | .word w, v =>
    -- The bounds of every number type lie within the 64 bits of a head.
    have hlow := Word.low_le_toInt w v
    have hhigh := Word.toInt_lt_bound w v
    have hsize := Word.bounds w
    obtain rfl : bs = writeInt (w.toInt v) := h
    refine ⟨Head.ofInt (w.toInt v), writeInt (w.toInt v), [], by simp,
      takes_read_writeInt (by omega) (by omega), ?_, ?_⟩
    · exact (takes_integerAfter_ofInt _).bind_nil (Takes.ofOption (Word.ofInt?_toInt w v))
    · unfold Head.ofInt
      split <;> simp
  | .bool, b =>
    obtain rfl : bs = Shape.bool.write b := h
    cases b with
    | true =>
      refine ⟨.simple 21, Head.write 7 21, [], by simp [Shape.write],
        Head.takes_read_simple (by decide), ?_, by simp⟩
      exact (Head.takes_skipTags (by simp)).nil_bind (Takes.pure true)
    | false =>
      refine ⟨.simple 20, Head.write 7 20, [], by simp [Shape.write],
        Head.takes_read_simple (by decide), ?_, by simp⟩
      exact (Head.takes_skipTags (by simp)).nil_bind (Takes.pure false)
  | .text, s =>
    have hsize : s.utf8ByteSize < UInt64.size := of_decide_eq_true hv
    obtain rfl : bs = writeText s := h
    exact ⟨.text (some s.utf8ByteSize), _, _, rfl, takes_read_text hsize, takes_textAfter s, by simp⟩
  | .list element, vs =>
    obtain ⟨depth, rfl⟩ := Nat.exists_eq_add_of_le' hdepth
    simp only [Shape.fits, Bool.and_eq_true, decide_eq_true_eq, List.all_eq_true] at hv
    obtain ⟨parts, hparts, rfl⟩ := h
    -- The elements are read one level of nesting deeper than the list.
    have helement : ∀ v ∈ vs, ∀ p, element.Spells (Item .readable) (depth + element.depth) v p →
        (element.read (depth + element.depth)).Takes p v :=
      fun v hmem p hp => (Shape.reads_of_spells element (depth + element.depth) (by omega) hplain v
        (hv.2 v hmem) hp).takes
    have helements := Takes.times_of_forall₂ hparts helement
    refine ⟨.array (some vs.length), Head.write 4 vs.length, parts.flatten, rfl,
      Head.takes_read_write (by decide) hv.1 rfl, ?_, by simp⟩
    refine (Head.takes_skipTags (by simp)).nil_bind ?_
    rw [List.map_id'] at helements
    exact helements
  | .dict value, m =>
    obtain ⟨depth, rfl⟩ := Nat.exists_eq_add_of_le' hdepth
    simp only [Shape.fits, Bool.and_eq_true, decide_eq_true_eq, List.all_eq_true] at hv
    obtain ⟨parts, hparts, rfl⟩ := h
    -- A pair is a text and then a value.
    have hpair : ∀ e ∈ m.entries, ∀ p,
        (∃ q, p = writeText e.1 ++ q ∧
          value.Spells (Item .readable) (depth + value.depth) e.2 q) →
        (value.aPair (depth + value.depth)).Takes p e := by
      rintro e hmem - ⟨q, rfl, hq⟩
      have hvalue := (Shape.reads_of_spells value (depth + value.depth) (by omega) hplain e.2
        (hv.2 e hmem).2 hq).answers
      exact Shape.answers_pair (hv.2 e hmem).1 hvalue
    have hpairs := Takes.times_of_forall₂ hparts hpair
    refine ⟨.map (some m.entries.length), Head.write 5 m.entries.length, _, rfl,
      Head.takes_read_write (by decide) hv.1 rfl, ?_, by simp⟩
    refine (Head.takes_skipTags (by simp)).nil_bind ?_
    rw [List.map_id'] at hpairs
    conv => rhs; rw [← SortedMap.ofList_entries m]
    exact hpairs.bind_nil (Takes.pure (SortedMap.ofList m.entries))
  | .option value, none =>
    obtain rfl : bs = Head.write 7 22 := h
    exact ⟨.simple 22, Head.write 7 22, [], by simp, Head.takes_read_simple (by decide),
      Takes.pure none, by simp [Shape.isOption]⟩
  | .option value, some v =>
    simp only [Shape.isPlain, Bool.and_eq_true, Bool.not_eq_true'] at hplain
    exact (Shape.reads_of_spells value depth hdepth hplain.2 v hv h).option hplain.1
  | .pair first second, (a, b) =>
    obtain ⟨depth, rfl⟩ := Nat.exists_eq_add_of_le' hdepth
    simp only [Shape.isPlain, Bool.and_eq_true] at hplain
    simp only [Shape.fits, Bool.and_eq_true] at hv
    obtain ⟨p, q, hp, hq, rfl⟩ := h
    have hfirst := (Shape.reads_of_spells first (depth + max first.depth second.depth)
      (by omega) hplain.1 a hv.1 hp).takes
    have hsecond := (Shape.reads_of_spells second (depth + max first.depth second.depth)
      (by omega) hplain.2 b hv.2 hq).takes
    refine ⟨.array (some 2), Head.write 4 2, p ++ q, rfl,
      Head.takes_read_write (by decide) (by decide) rfl, ?_, by simp⟩
    refine (Head.takes_skipTags (by simp)).nil_bind ?_
    exact hfirst.bind (hsecond.bind_nil (Takes.pure (a, b)))
  | .record fields, vs =>
    obtain ⟨depth, rfl⟩ := Nat.exists_eq_add_of_le' hdepth
    simp only [Shape.isPlain, Bool.and_eq_true] at hplain
    obtain ⟨own, extra, parts, n, hown, hextra, hparts, hn, rfl⟩ := h
    have hfields := Fields.reads_of_spellEach fields (depth + fields.depth) (by omega) hplain.1 vs hv hown
    have hentries := Fields.answers_entries hfields hextra hparts
    rw [Fields.collect?_entries] at hentries
    exact Shape.reads_record hn hentries
  | .choice variants, v =>
    obtain ⟨depth, rfl⟩ := Nat.exists_eq_add_of_le' hdepth
    exact (Variants.reads_of_spells variants (depth + variants.depth) (by omega) hplain v hv h).choice

/-- What spells the fields of a record reads as one entry for each. -/
theorem Fields.reads_of_spellEach (fs : Fields) (depth : Nat) (hdepth : fs.depth ≤ depth)
    (hplain : fs.isPlain) (vs : fs.Vals) (hvs : fs.fits vs) {own : List Bytes}
    (h : fs.SpellEach (Item .readable) depth vs own) :
    List.Forall₂ (fun p e => fs.Reads depth p (some e)) own (fs.entries vs) := by
  match fs, vs with
  | .nil, () =>
    obtain rfl : own = [] := h
    exact .nil
  | .cons name shape rest, (v, vs) =>
    simp only [Fields.depth] at hdepth
    simp only [Fields.isPlain, Bool.and_eq_true, decide_eq_true_eq] at hplain
    simp only [Fields.fits, Bool.and_eq_true] at hvs
    obtain ⟨p, later, rfl, hp, hlater⟩ := h
    obtain ⟨⟨⟨hlen, hname⟩, hshape⟩, hrest⟩ := hplain
    have hvalue := Shape.reads_of_spells shape depth (by omega) hshape v hvs.1 hp
    -- The later names differ from the first, so their entries go past its field.
    have hothers := Fields.reads_of_spellEach rest depth (by omega) hrest vs hvs.2 hlater
    refine .cons (.own hlen hvalue) ?_
    exact List.forall₂_map_right_iff.mpr (hothers.imp fun _ _ h => h.later hname)

/-- What spells a variant reads as the variant. -/
theorem Variants.reads_of_spells (vs : Variants) (depth : Nat) (hdepth : vs.depth ≤ depth)
    (hplain : vs.isPlain) (v : vs.Val) (hv : vs.fits v) {bs : Bytes}
    (h : vs.Spells (Item .readable) depth v bs) : vs.Reads depth bs (some v) := by
  match vs, v with
  | .unit name rest, .inl () =>
    simp only [Variants.isPlain, Bool.and_eq_true, decide_eq_true_eq] at hplain
    obtain rfl : bs = writeText name := h
    exact .name hplain.1.1
  | .unit name rest, .inr v =>
    simp only [Variants.isPlain, Bool.and_eq_true, decide_eq_true_eq] at hplain
    exact (Variants.reads_of_spells rest depth hdepth hplain.2 v hv h).unit hplain.1.2
  | .payload name shape rest, .inl v =>
    simp only [Variants.depth] at hdepth
    simp only [Variants.isPlain, Bool.and_eq_true, decide_eq_true_eq] at hplain
    obtain ⟨p, hp, rfl⟩ := h
    exact .own hplain.1.1.1 (Shape.reads_of_spells shape depth (by omega) hplain.1.2 v hv hp)
  | .payload name shape rest, .inr v =>
    simp only [Variants.depth] at hdepth
    simp only [Variants.isPlain, Bool.and_eq_true, decide_eq_true_eq] at hplain
    exact (Variants.reads_of_spells rest depth (by omega) hplain.2 v hv h).payload hplain.1.1.2

end

end ObjectStore.Cbor
