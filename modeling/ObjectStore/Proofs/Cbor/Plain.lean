import ObjectStore.Cbor.Layout
import ObjectStore.Proofs.Cbor.Head
import ObjectStore.Proofs.SortedMap

/-!
# Shapes that can be read

Three things are asked of a shape so that its values can be read: the limit of nesting leaves room for it
(`Shape.depth`), its names are distinct and not too long, and no option lies directly in an option
(`Shape.isPlain`). What it then means that bytes read as a value, or as none, is said in a form that goes
through the recursion of shapes: `Shape.Reads`, from the head of the value on, and `Fields.Reads` and
`Variants.Reads`, from the name on.
-/

namespace ObjectStore.Cbor

open Reader (Takes)

/-! ## Shapes that can be read -/

mutual

/-- How many levels of nesting the values of a shape take. -/
def Shape.depth : Shape → Nat
  | .word _ => 0
  | .bool => 0
  | .text => 0
  | .list element => element.depth + 1
  | .dict value => value.depth + 1
  | .option value => value.depth
  | .pair first second => max first.depth second.depth + 1
  | .record fields => fields.depth + 1
  | .choice variants => variants.depth + 1

/-- How many levels of nesting the fields take. -/
def Fields.depth : Fields → Nat
  | .nil => 0
  | .cons _ shape rest => max shape.depth rest.depth

/-- How many levels of nesting the payloads take. -/
def Variants.depth : Variants → Nat
  | .nil => 0
  | .unit _ rest => rest.depth
  | .payload _ shape rest => max shape.depth rest.depth

end

/-- The names of fields. -/
def Fields.names : Fields → List String
  | .nil => []
  | .cons name _ rest => name :: rest.names

/-- The names of variants. -/
def Variants.names : Variants → List String
  | .nil => []
  | .unit name rest => name :: rest.names
  | .payload name _ rest => name :: rest.names

/-- Whether a shape is an option. -/
def Shape.isOption : Shape → Bool
  | .option _ => true
  | _ => false

mutual

/-- Whether the names in a shape are distinct and not too long, and no option lies directly in an
option. -/
def Shape.isPlain : Shape → Bool
  | .word _ => true
  | .bool => true
  | .text => true
  | .list element => element.isPlain
  | .dict value => value.isPlain
  | .option value => !value.isOption && value.isPlain
  | .pair first second => first.isPlain && second.isPlain
  | .record fields => fields.isPlain && decide (fields.length < UInt64.size)
  | .choice variants => variants.isPlain

/-- Whether the names of fields are distinct and not too long, and their shapes plain. -/
def Fields.isPlain : Fields → Bool
  | .nil => true
  | .cons name shape rest =>
    decide (name.utf8ByteSize ≤ nameLimit) && decide (name ∉ rest.names) && shape.isPlain &&
      rest.isPlain

/-- Whether the names of variants are distinct and not too long, and their shapes plain. -/
def Variants.isPlain : Variants → Bool
  | .nil => true
  | .unit name rest =>
    decide (name.utf8ByteSize ≤ nameLimit) && decide (name ∉ rest.names) && rest.isPlain
  | .payload name shape rest =>
    decide (name.utf8ByteSize ≤ nameLimit) && decide (name ∉ rest.names) && shape.isPlain &&
      rest.isPlain

end

/-! ## Entries of a record -/

/-- One entry for each field, in order. -/
def Fields.entries : (fs : Fields) → fs.Vals → List fs.Entry
  | .nil, _ => []
  | .cons _ _ rest, (v, vs) => .inl v :: (rest.entries vs).map .inr

theorem filterMap_getLeft?_append {α β : Type} (as : List α) (bs : List β) :
    (as.map Sum.inl ++ bs.map Sum.inr).filterMap Sum.getLeft? = as := by
  simp [List.filterMap_append, List.filterMap_map, Function.comp_def]

theorem filterMap_getRight?_append {α β : Type} (as : List α) (bs : List β) :
    (as.map Sum.inl ++ bs.map Sum.inr).filterMap Sum.getRight? = bs := by
  simp [List.filterMap_append, List.filterMap_map, Function.comp_def]

/-- One entry of the first field is its value, and the later fields are collected from the rest. -/
theorem Fields.collect?_cons (name : String) {shape : Shape} {rest : Fields} (v : shape.Val)
    (es : List rest.Entry) :
    (Fields.cons name shape rest).collect? (.inl v :: es.map .inr) =
      (rest.collect? es).map fun vs => (v, vs) := by
  change (Fields.cons name shape rest).collect? ([v].map .inl ++ es.map .inr) = _
  simp only [collect?, filterMap_getLeft?_append, filterMap_getRight?_append]

/-- Without exactly one entry of the first field there are no values of all fields. -/
theorem Fields.collect?_eq_none (name : String) {shape : Shape} {rest : Fields} (own : List shape.Val)
    (es : List rest.Entry) (h : own.length ≠ 1) :
    (Fields.cons name shape rest).collect? (own.map .inl ++ es.map .inr) = none := by
  unfold collect?
  rw [filterMap_getLeft?_append]
  match own, h with
  | [], _ => rfl
  | _ :: _ :: _, _ => rfl

theorem Fields.collect?_entries (fs : Fields) (vs : fs.Vals) : fs.collect? (fs.entries vs) = some vs := by
  match fs, vs with
  | .nil, () => rfl
  | .cons name _ rest, (v, vs) =>
    rw [entries, collect?_cons name v, Fields.collect?_entries rest vs, Option.map_some]

/-- The entry for a name that is none of the fields. -/
def Fields.noField : (fs : Fields) → fs.Entry
  | .nil => ()
  | .cons _ _ rest => .inr rest.noField

/-- The order of the entries makes no difference. -/
theorem Fields.collect?_perm {fs : Fields} {es es' : List fs.Entry} (h : es.Perm es') :
    fs.collect? es = fs.collect? es' := by
  match fs with
  | .nil => rfl
  | .cons _ _ rest =>
    have hown := h.filterMap Sum.getLeft?
    have hlater := Fields.collect?_perm (h.filterMap Sum.getRight?)
    unfold collect?
    rw [hlater]
    -- Only a list of one value counts, and one value has no other order.
    generalize es.filterMap Sum.getLeft? = own at hown ⊢
    generalize es'.filterMap Sum.getLeft? = own' at hown ⊢
    match own with
    | [] => rw [List.nil_perm.mp hown]
    | [v] => rw [List.singleton_perm.mp hown]
    | v :: w :: own =>
      match own', hown.length_eq with
      | v' :: w' :: own', _ => rfl

/-- Entries that are none of the fields make no difference. -/
theorem Fields.collect?_append_noField {fs : Fields} (es : List fs.Entry) (k : Nat) :
    fs.collect? (es ++ List.replicate k fs.noField) = fs.collect? es := by
  match fs with
  | .nil => rfl
  | .cons _ shape rest =>
    have hown : (List.replicate k (Sum.inr rest.noField : shape.Val ⊕ rest.Entry)).filterMap
        Sum.getLeft? = [] :=
      List.filterMap_replicate_of_none rfl
    have hlater : (List.replicate k (Sum.inr rest.noField : shape.Val ⊕ rest.Entry)).filterMap
        Sum.getRight? = List.replicate k rest.noField :=
      List.filterMap_replicate_of_some rfl
    have ih := Fields.collect?_append_noField (es.filterMap Sum.getRight?) k
    simp only [collect?, noField, List.filterMap_append, hown, hlater, List.append_nil, ih]

/-! ## Reading from the head on -/

/-- The bytes are a head, which is that of an absent option only in an option, and what the shape's
reader answers with the outcome after this head. -/
def Shape.Reads (s : Shape) (depth : Nat) (bs : Bytes) (o : Option s.Val) : Prop :=
  ∃ h front body, bs = front ++ body ∧ Head.read.Takes front h ∧ (s.readAfter depth h).Answers body o ∧
    (s.isOption = false → h ≠ .simple 22 ∧ h ≠ .simple 23)

theorem Shape.Reads.answers {s : Shape} {depth : Nat} {bs : Bytes} {o : Option s.Val}
    (h : s.Reads depth bs o) : (s.read depth).Answers bs o := by
  obtain ⟨h, front, body, rfl, hhead, hbody, -⟩ := h
  exact .after hhead hbody

theorem Shape.Reads.takes {s : Shape} {depth : Nat} {bs : Bytes} {v : s.Val}
    (h : s.Reads depth bs (some v)) : (s.read depth).Takes bs v :=
  h.answers

theorem Shape.Reads.rejects {s : Shape} {depth : Nat} {bs : Bytes} (h : s.Reads depth bs none) :
    (s.read depth).Rejects bs :=
  h.answers

/-- Behind a head that is not that of an absent value, an option is read as its value. -/
theorem Shape.readAfter_option {value : Shape} {depth : Nat} {h : Head} (h22 : h ≠ .simple 22)
    (h23 : h ≠ .simple 23) :
    (Shape.option value).readAfter depth h = some <$> value.readAfter depth h := by
  rw [Shape.readAfter]
  · exact h22
  · exact h23

/-- An option reads like its value. No option lies directly in an option, so that the head is not that of
an absent value. -/
theorem Shape.Reads.option {value : Shape} {depth : Nat} {bs : Bytes} {o : Option value.Val}
    (h : value.Reads depth bs o) (hvalue : value.isOption = false) :
    (Shape.option value).Reads depth bs (o.map some) := by
  obtain ⟨h, front, body, hbs, hhead, hbody, habsent⟩ := h
  obtain ⟨h22, h23⟩ := habsent hvalue
  refine ⟨h, front, body, hbs, hhead, ?_, by simp [Shape.isOption]⟩
  rw [Shape.readAfter_option h22 h23]
  exact hbody.map some

/-- Takes one entry of a dictionary. -/
@[reducible]
def Shape.aPair (value : Shape) (depth : Nat) : Reader (String × value.Val) := do
  let key ← textAfter (← Head.read)
  let v ← Head.read >>= fun h => value.readAfter depth h
  pure (key, v)

/-- An entry of a dictionary is a text and then a value. -/
theorem Shape.answers_pair {value : Shape} {depth : Nat} {key : String} {bs : Bytes}
    {o : Option value.Val} (hkey : key.utf8ByteSize < UInt64.size)
    (h : (value.read depth).Answers bs o) :
    (value.aPair depth).Answers (writeText key ++ bs) (o.map fun v => (key, v)) := by
  rw [writeText, List.append_assoc]
  exact .after (takes_read_text hkey) (.after (takes_textAfter key) (h.bind_pure _))

/-! ## Reading from the name on -/

theorem encode_ne {s t : String} (h : s ≠ t) : Utf8.encode s ≠ Utf8.encode t :=
  fun heq => h (Utf8.encode_injective heq)

/-- Takes one entry of a record's map, from its name on. -/
@[reducible]
def Fields.anEntry (fs : Fields) (depth : Nat) : Reader fs.Entry :=
  readName >>= fun name => fs.readEntry depth name

/-- Takes as many entries of a record's map and collects the values of the fields from them. -/
@[reducible]
def Fields.theValues (fs : Fields) (depth count : Nat) : Reader fs.Vals :=
  Reader.times (fs.anEntry depth) count >>= fun es => Reader.ofOption (fs.collect? es)

/-- The bytes are the name of a field and what the reader of the entry so named answers with the outcome
after it. -/
def Fields.Reads (fs : Fields) (depth : Nat) (bs : Bytes) (o : Option fs.Entry) : Prop :=
  ∃ name body, name ∈ fs.names ∧ name.utf8ByteSize ≤ nameLimit ∧
    (fs.readEntry depth (Utf8.encode name)).Answers body o ∧ bs = writeText name ++ body

theorem Fields.Reads.answers {fs : Fields} {depth : Nat} {bs : Bytes} {o : Option fs.Entry}
    (h : fs.Reads depth bs o) : (fs.anEntry depth).Answers bs o := by
  obtain ⟨name, body, -, hlen, hanswers, rfl⟩ := h
  exact .after (takes_readName hlen) hanswers

/-- The name of the first field is followed by its value. -/
theorem Fields.Reads.own {name : String} {shape : Shape} {rest : Fields} {depth : Nat} {bs : Bytes}
    {o : Option shape.Val} (hlen : name.utf8ByteSize ≤ nameLimit) (h : shape.Reads depth bs o) :
    (Fields.cons name shape rest).Reads depth (writeText name ++ bs) (o.map .inl) := by
  refine ⟨name, bs, List.mem_cons_self, hlen, ?_, rfl⟩
  rw [readEntry, if_pos rfl]
  exact h.answers.map _

/-- The entry of another field goes past the first. -/
theorem Fields.readEntry_of_ne {name other : String} (h : name ≠ other) (shape : Shape) (rest : Fields)
    (depth : Nat) :
    (Fields.cons name shape rest).readEntry depth (Utf8.encode other) =
      Sum.inr <$> rest.readEntry depth (Utf8.encode other) := by
  rw [readEntry, if_neg (encode_ne h)]

/-- A field in front that has another name changes nothing. -/
theorem Fields.Reads.later {fs : Fields} {depth : Nat} {bs : Bytes} {o : Option fs.Entry} {name : String}
    {shape : Shape} (h : fs.Reads depth bs o) (hname : name ∉ fs.names) :
    (Fields.cons name shape fs).Reads depth bs (o.map .inr) := by
  obtain ⟨other, body, hmem, hlen, hanswers, rfl⟩ := h
  have hne : name ≠ other := fun heq => hname (heq ▸ hmem)
  refine ⟨other, body, List.mem_cons_of_mem _ hmem, hlen, ?_, rfl⟩
  rw [readEntry_of_ne hne]
  exact hanswers.map _

/-- Under a name that is none of the fields the content is passed over, if it can be. -/
theorem Fields.answers_noField {fs : Fields} {depth : Nat} {name : String} {item : Bytes}
    {o : Option Unit} (hname : name ∉ fs.names) (hitem : (skipItem depth).Answers item o) :
    (fs.readEntry depth (Utf8.encode name)).Answers item (o.map fun _ => fs.noField) := by
  match fs with
  | .nil =>
    rw [show (o.map fun _ => Fields.nil.noField) = o from Option.map_id']
    exact hitem
  | .cons field shape rest =>
    obtain ⟨hne, hrest⟩ := List.ne_and_not_mem_of_not_mem_cons hname
    have hlater := (Fields.answers_noField hrest hitem).map (Sum.inr : _ → shape.Val ⊕ rest.Entry)
    rw [Option.map_map] at hlater
    rw [readEntry_of_ne hne.symm]
    exact hlater

/-- The bytes are a bare name, or a one-entry map from a name, and what the reader of the named variant
answers with the outcome after it. -/
def Variants.Reads (vs : Variants) (depth : Nat) (bs : Bytes) (o : Option vs.Val) : Prop :=
  ∃ name body, name ∈ vs.names ∧ name.utf8ByteSize ≤ nameLimit ∧
    (vs.readNamed depth (Utf8.encode name)).Answers body o ∧
    (bs = writeText name ++ body ∨ bs = Head.write 5 1 ++ writeText name ++ body)

/-- A variant without payload is its bare name. -/
theorem Variants.Reads.name {name : String} {rest : Variants} {depth : Nat}
    (hlen : name.utf8ByteSize ≤ nameLimit) :
    (Variants.unit name rest).Reads depth (writeText name) (some (.inl ())) := by
  refine ⟨name, [], List.mem_cons_self, hlen, ?_, .inl (by simp)⟩
  rw [readNamed, if_pos rfl]
  exact Takes.pure _

/-- A variant with a payload is a map from its name. -/
theorem Variants.Reads.own {name : String} {shape : Shape} {rest : Variants} {depth : Nat} {bs : Bytes}
    {o : Option shape.Val} (hlen : name.utf8ByteSize ≤ nameLimit) (h : shape.Reads depth bs o) :
    (Variants.payload name shape rest).Reads depth (Head.write 5 1 ++ writeText name ++ bs)
      (o.map .inl) := by
  refine ⟨name, bs, List.mem_cons_self, hlen, ?_, .inr rfl⟩
  rw [readNamed, if_pos rfl]
  exact h.answers.map _

/-- A variant in front that has another name changes nothing. -/
theorem Variants.Reads.unit {vs : Variants} {depth : Nat} {bs : Bytes} {o : Option vs.Val} {name : String}
    (h : vs.Reads depth bs o) (hname : name ∉ vs.names) :
    (Variants.unit name vs).Reads depth bs (o.map .inr) := by
  obtain ⟨other, body, hmem, hlen, hanswers, hbs⟩ := h
  have hne : name ≠ other := fun heq => hname (heq ▸ hmem)
  refine ⟨other, body, List.mem_cons_of_mem _ hmem, hlen, ?_, hbs⟩
  rw [readNamed, if_neg (encode_ne hne)]
  exact hanswers.map _

/-- A variant in front that has another name changes nothing. -/
theorem Variants.Reads.payload {vs : Variants} {depth : Nat} {bs : Bytes} {o : Option vs.Val}
    {name : String} {shape : Shape} (h : vs.Reads depth bs o) (hname : name ∉ vs.names) :
    (Variants.payload name shape vs).Reads depth bs (o.map .inr) := by
  obtain ⟨other, body, hmem, hlen, hanswers, hbs⟩ := h
  have hne : name ≠ other := fun heq => hname (heq ▸ hmem)
  refine ⟨other, body, List.mem_cons_of_mem _ hmem, hlen, ?_, hbs⟩
  rw [readNamed, if_neg (encode_ne hne)]
  exact hanswers.map _

/-- A choice takes the level of nesting that its variants are read under. -/
theorem Variants.Reads.choice {vs : Variants} {depth : Nat} {bs : Bytes} {o : Option vs.Val}
    (h : vs.Reads depth bs o) : (Shape.choice vs).Reads (depth + 1) bs o := by
  obtain ⟨name, body, -, hlen, hanswers, hbs⟩ := h
  have hsize : name.utf8ByteSize < UInt64.size := Nat.lt_of_le_of_lt hlen (by decide)
  rcases hbs with rfl | rfl
  · refine ⟨.text (some name.utf8ByteSize), Head.write 3 name.utf8ByteSize, Utf8.encode name ++ body,
      by simp [writeText], takes_read_text hsize, ?_, by simp⟩
    refine .after_nil (Head.takes_skipTags (by simp)) ?_
    exact .after (takes_nameAfter hlen) hanswers
  · refine ⟨.map (some 1), Head.write 5 1, writeText name ++ body, by simp,
      Head.takes_read_write (by decide) (by decide) rfl, ?_, by simp⟩
    refine .after_nil (Head.takes_skipTags (by simp)) ?_
    exact .after (takes_readName hlen) hanswers

end ObjectStore.Cbor
