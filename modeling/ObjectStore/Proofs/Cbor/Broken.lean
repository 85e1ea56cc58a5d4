import ObjectStore.Cbor.Envelope
import ObjectStore.Proofs.Cbor.Spelling

/-!
# Broken spellings

A record has to have each of its fields once. `Shape.Breaks` says which bytes spell a value but for one
field of one record, anywhere in the value, which is left out or given twice.

Main statements: `Shape.refuses_of_breaks`, that such bytes read as no value at all, and
`Shape.refuses_of_extra`, that a record is refused as well for extra content that is not passed over.
-/

namespace ObjectStore.Cbor

open Reader (Takes Rejects Answers)

/-! ## One field too few or too many -/

mutual

/-- The bytes spell the value but for one field of one record, which is left out or given twice. -/
def Shape.Breaks (content : Nat → Bytes → Prop) : (s : Shape) → (depth : Nat) → s.Val → Bytes → Prop
  | .word _, _, _, _ => False
  | .bool, _, _, _ => False
  | .text, _, _, _ => False
  | .list element, depth, vs, bs =>
    ∃ (before after : List element.Val) (v : element.Val) (ps qs : List Bytes) (p : Bytes),
      vs = before ++ v :: after ∧
      List.Forall₂ (fun p v => element.Spells content (depth - 1) v p) ps before ∧
      element.Breaks content (depth - 1) v p ∧
      List.Forall₂ (fun p v => element.Spells content (depth - 1) v p) qs after ∧
      bs = Head.write 4 vs.length ++ (ps ++ p :: qs).flatten
  | .dict value, depth, m, bs =>
    ∃ (before after : List (String × value.Val)) (e : String × value.Val) (ps qs : List Bytes)
      (p : Bytes),
      m.entries = before ++ e :: after ∧
      List.Forall₂
        (fun p e => ∃ q, p = writeText e.1 ++ q ∧ value.Spells content (depth - 1) e.2 q) ps before ∧
      value.Breaks content (depth - 1) e.2 p ∧
      List.Forall₂
        (fun p e => ∃ q, p = writeText e.1 ++ q ∧ value.Spells content (depth - 1) e.2 q) qs after ∧
      bs = Head.write 5 m.entries.length ++ (ps ++ (writeText e.1 ++ p) :: qs).flatten
  | .option _, _, none, _ => False
  | .option value, depth, some v, bs => value.Breaks content depth v bs
  | .pair first second, depth, (a, b), bs =>
    ∃ p q, bs = Head.write 4 2 ++ (p ++ q) ∧
      (first.Breaks content (depth - 1) a p ∨
        first.Spells content (depth - 1) a p ∧ second.Breaks content (depth - 1) b q)
  | .record fields, depth, vs, bs =>
    ∃ (own extra parts : List Bytes) (n : Argument), fields.BreakOne content (depth - 1) vs own ∧
      (∀ e ∈ extra, IsExtra (content (depth - 1)) fields.names e) ∧ parts.Perm (own ++ extra) ∧
      n.value = parts.length ∧ bs = n.write 5 ++ parts.flatten
  | .choice variants, depth, v, bs => variants.Breaks content (depth - 1) v bs

/-- There is one entry for each field, in order, but for one field: it has no entry or two, or what its
entry says is broken. -/
def Fields.BreakOne (content : Nat → Bytes → Prop) :
    (fs : Fields) → (depth : Nat) → fs.Vals → List Bytes → Prop
  | .nil, _, _, _ => False
  | .cons name shape rest, depth, (v, vs), own =>
    rest.SpellEach content depth vs own ∨
    (∃ p p' v' later, own = (writeText name ++ p) :: (writeText name ++ p') :: later ∧
      shape.Spells content depth v p ∧ shape.fits v' ∧ shape.Spells content depth v' p' ∧
      rest.SpellEach content depth vs later) ∨
    (∃ p later, own = (writeText name ++ p) :: later ∧ shape.Breaks content depth v p ∧
      rest.SpellEach content depth vs later) ∨
    ∃ p later, own = (writeText name ++ p) :: later ∧ shape.Spells content depth v p ∧
      rest.BreakOne content depth vs later

/-- The bytes are those of a variant whose payload is broken. -/
def Variants.Breaks (content : Nat → Bytes → Prop) :
    (vs : Variants) → (depth : Nat) → vs.Val → Bytes → Prop
  | .unit _ _, _, .inl _, _ => False
  | .unit _ rest, depth, .inr v, bs => rest.Breaks content depth v bs
  | .payload name shape _, depth, .inl v, bs =>
    ∃ p, shape.Breaks content depth v p ∧ bs = Head.write 5 1 ++ writeText name ++ p
  | .payload _ _ rest, depth, .inr v, bs => rest.Breaks content depth v bs

end

/-- What is written for a record without its first field is broken. -/
theorem Shape.breaks_without_first {content : Nat → Bytes → Prop} {name : String} {shape : Shape}
    {rest : Fields} {depth : Nat} {v : shape.Val} {vs : rest.Vals}
    (hplain : (Shape.record (.cons name shape rest)).isPlain)
    (hvs : (Fields.cons name shape rest).fits (v, vs)) :
    (Shape.record (.cons name shape rest)).Breaks content (depth + 1) (v, vs)
      ((Shape.record rest).write vs) := by
  simp only [Shape.isPlain, Fields.isPlain, Bool.and_eq_true] at hplain
  simp only [Fields.fits, Bool.and_eq_true] at hvs
  have hlength : rest.length + 1 < UInt64.size := of_decide_eq_true hplain.2
  obtain ⟨n, hn, hhead⟩ := Argument.exists_write_eq (Nat.lt_of_succ_lt hlength)
  refine ⟨rest.parts vs, [], rest.parts vs, n,
    .inl (Fields.spellEach_parts content rest depth hplain.1.2 vs hvs.2), by simp, by simp, ?_, ?_⟩
  · rw [hn, Fields.length_parts]
  · rw [Shape.write, hhead, Fields.flatten_parts]

/-! ## Reading a broken spelling -/

/-- The entries do not come to the values of the fields: they all read, but not as one for each field, or
one of them does not read. -/
def Fields.Refuses (fs : Fields) (depth : Nat) (own : List Bytes) : Prop :=
  (∃ es, List.Forall₂ (fun p e => fs.Reads depth p (some e)) own es ∧ fs.collect? es = none) ∨
    ∃ os, List.Forall₂ (fs.Reads depth) own os ∧ none ∈ os

/-- The entry of another field in front is no help. -/
theorem Fields.Refuses.later {rest : Fields} {depth : Nat} {own : List Bytes} {name : String}
    {shape : Shape} {p : Bytes} {v : shape.Val} (h : rest.Refuses depth own) (hname : name ∉ rest.names)
    (hp : (Fields.cons name shape rest).Reads depth p (some (.inl v))) :
    (Fields.cons name shape rest).Refuses depth (p :: own) := by
  rcases h with ⟨es, hreads, hnone⟩ | ⟨os, hreads, hnone⟩
  · refine .inl ⟨.inl v :: es.map .inr, .cons hp ?_, ?_⟩
    · exact List.forall₂_map_right_iff.mpr (hreads.imp fun _ _ h => h.later hname)
    · rw [Fields.collect?_cons name v, hnone, Option.map_none]
  · refine .inr ⟨some (.inl v) :: os.map (Option.map .inr), .cons hp ?_, ?_⟩
    · exact List.forall₂_map_right_iff.mpr (hreads.imp fun _ _ h => h.later hname)
    · exact List.mem_cons_of_mem _ (List.mem_map.mpr ⟨none, hnone, rfl⟩)

/-- Neither the order of the entries nor extra ones among them are any help. -/
theorem Fields.rejects_entries {fs : Fields} {depth : Nat} {own extra parts : List Bytes}
    (hown : fs.Refuses depth own) (hextra : ∀ e ∈ extra, IsExtra (Item .readable depth) fs.names e)
    (hparts : parts.Perm (own ++ extra)) :
    (fs.theValues depth parts.length).Rejects parts.flatten := by
  rcases hown with ⟨es, hreads, hnone⟩ | ⟨os, hreads, hnone⟩
  · have hentries := Fields.answers_entries hreads hextra hparts
    rw [hnone] at hentries
    exact hentries
  · have hothers : List.Forall₂ (fs.anEntry depth).Answers extra
        (extra.map fun _ => some fs.noField) :=
      List.forall₂_map_right_iff.mpr (List.forall₂_same.mpr fun e he => (hextra e he).takes)
    have hall := List.rel_append (hreads.imp fun _ _ h => h.answers) hothers
    obtain ⟨os', hanswers, hperm⟩ := List.perm_comp_forall₂ hparts hall
    have hmem : none ∈ os' := hperm.mem_iff.mpr (List.mem_append_left _ hnone)
    exact (Answers.times_of_mem hanswers hmem).bind _

mutual

/-- A broken spelling reads as no value, if nesting leaves room for the shape. -/
theorem Shape.refuses_of_breaks (s : Shape) (depth : Nat) (hdepth : s.depth ≤ depth) (hplain : s.isPlain)
    (v : s.Val) (hv : s.fits v) {bs : Bytes} (h : s.Breaks (Item .readable) depth v bs) :
    s.Reads depth bs none := by
  match s, v with
  | .word _, _ => exact h.elim
  | .bool, _ => exact h.elim
  | .text, _ => exact h.elim
  | .list element, vs =>
    obtain ⟨depth, rfl⟩ := Nat.exists_eq_add_of_le' hdepth
    simp only [Shape.fits, Bool.and_eq_true, decide_eq_true_eq, List.all_eq_true] at hv
    obtain ⟨before, later, v, ps, qs, p, rfl, hps, hp, -, rfl⟩ := h
    have hbroken := (Shape.refuses_of_breaks element (depth + element.depth) (by omega) hplain v
      (hv.2 v (by simp)) hp).rejects
    -- The elements before the broken one are read as they are.
    have hbefore : ∀ v ∈ before, ∀ p, element.Spells (Item .readable) (depth + element.depth) v p →
        (element.read (depth + element.depth)).Takes p v := by
      intro v hmem p hp
      have hfits := hv.2 v (List.mem_append_left _ hmem)
      exact (Shape.reads_of_spells element (depth + element.depth) (by omega) hplain v hfits hp).takes
    refine ⟨.array (some (before ++ v :: later).length), Head.write 4 _, _, rfl,
      Head.takes_read_write (by decide) hv.1 rfl, ?_, by simp⟩
    refine .after_nil (Head.takes_skipTags (by simp)) ?_
    rw [List.length_append]
    exact Rejects.times_of_forall₂ hps hbefore hbroken qs later.length
  | .dict value, m =>
    obtain ⟨depth, rfl⟩ := Nat.exists_eq_add_of_le' hdepth
    simp only [Shape.fits, Bool.and_eq_true, decide_eq_true_eq, List.all_eq_true] at hv
    obtain ⟨before, later, e, ps, qs, p, hentries, hps, hp, -, rfl⟩ := h
    rw [hentries] at hv ⊢
    have hbroken := (Shape.refuses_of_breaks value (depth + value.depth) (by omega) hplain e.2
      (hv.2 e (by simp)).2 hp).answers
    have hpair := Shape.answers_pair (hv.2 e (by simp)).1 hbroken
    have hbefore : ∀ e ∈ before, ∀ p,
        (∃ q, p = writeText e.1 ++ q ∧
          value.Spells (Item .readable) (depth + value.depth) e.2 q) →
        (value.aPair (depth + value.depth)).Takes p e := by
      rintro e hmem - ⟨q, rfl, hq⟩
      have hfits := hv.2 e (List.mem_append_left _ hmem)
      have hvalue := (Shape.reads_of_spells value (depth + value.depth) (by omega) hplain e.2
        hfits.2 hq).answers
      exact Shape.answers_pair hfits.1 hvalue
    refine ⟨.map (some (before ++ e :: later).length), Head.write 5 _, _, rfl,
      Head.takes_read_write (by decide) hv.1 rfl, ?_, by simp⟩
    refine .after_nil (Head.takes_skipTags (by simp)) ?_
    rw [List.length_append]
    exact (Rejects.times_of_forall₂ hps hbefore hpair qs later.length).bind _
  | .option value, none => exact h.elim
  | .option value, some v =>
    simp only [Shape.isPlain, Bool.and_eq_true, Bool.not_eq_true'] at hplain
    exact (Shape.refuses_of_breaks value depth hdepth hplain.2 v hv h).option hplain.1
  | .pair first second, (a, b) =>
    obtain ⟨depth, rfl⟩ := Nat.exists_eq_add_of_le' hdepth
    simp only [Shape.isPlain, Bool.and_eq_true] at hplain
    simp only [Shape.fits, Bool.and_eq_true] at hv
    obtain ⟨p, q, rfl, h⟩ := h
    refine ⟨.array (some 2), Head.write 4 2, p ++ q, rfl,
      Head.takes_read_write (by decide) (by decide) rfl, ?_, by simp⟩
    refine .after_nil (Head.takes_skipTags (by simp)) ?_
    rcases h with hp | ⟨hp, hq⟩
    · have hfirst := (Shape.refuses_of_breaks first (depth + max first.depth second.depth)
        (by omega) hplain.1 a hv.1 hp).rejects
      exact (hfirst.append q).bind _
    · have hfirst := (Shape.reads_of_spells first (depth + max first.depth second.depth)
        (by omega) hplain.1 a hv.1 hp).takes
      have hsecond := (Shape.refuses_of_breaks second (depth + max first.depth second.depth)
        (by omega) hplain.2 b hv.2 hq).rejects
      exact Rejects.after hfirst (hsecond.bind _)
  | .record fields, vs =>
    obtain ⟨depth, rfl⟩ := Nat.exists_eq_add_of_le' hdepth
    simp only [Shape.isPlain, Bool.and_eq_true] at hplain
    obtain ⟨own, extra, parts, n, hown, hextra, hparts, hn, rfl⟩ := h
    have hfields := Fields.refuses_of_breakOne fields (depth + fields.depth) (by omega) hplain.1 vs hv
      hown
    exact Shape.reads_record (o := none) hn (Fields.rejects_entries hfields hextra hparts)
  | .choice variants, v =>
    obtain ⟨depth, rfl⟩ := Nat.exists_eq_add_of_le' hdepth
    exact (Variants.refuses_of_breaks variants (depth + variants.depth) (by omega) hplain v hv h).choice

/-- One broken entry, or one entry too few or too many, is refused. -/
theorem Fields.refuses_of_breakOne (fs : Fields) (depth : Nat) (hdepth : fs.depth ≤ depth)
    (hplain : fs.isPlain) (vs : fs.Vals) (hvs : fs.fits vs) {own : List Bytes}
    (h : fs.BreakOne (Item .readable) depth vs own) : fs.Refuses depth own := by
  match fs, vs with
  | .nil, () => exact h.elim
  | .cons name shape rest, (v, vs) =>
    simp only [Fields.depth] at hdepth
    simp only [Fields.isPlain, Bool.and_eq_true, decide_eq_true_eq] at hplain
    simp only [Fields.fits, Bool.and_eq_true] at hvs
    obtain ⟨⟨⟨hlen, hname⟩, hshape⟩, hrest⟩ := hplain
    have hvalue : ∀ v, shape.fits v → ∀ p, shape.Spells (Item .readable) depth v p →
        (Fields.cons name shape rest).Reads depth (writeText name ++ p) (some (.inl v)) :=
      fun v hv p hp => .own hlen (Shape.reads_of_spells shape depth (by omega) hshape v hv hp)
    have hothers : ∀ own, rest.SpellEach (Item .readable) depth vs own →
        List.Forall₂ (fun p e => (Fields.cons name shape rest).Reads depth p (some e)) own
          ((rest.entries vs).map .inr) := by
      intro own hown
      have hreads := Fields.reads_of_spellEach rest depth (by omega) hrest vs hvs.2 hown
      exact List.forall₂_map_right_iff.mpr (hreads.imp fun _ _ h => h.later hname)
    rcases h with hmissing | ⟨p, p', v', later, rfl, hp, hv', hp', hlater⟩ | ⟨p, later, rfl, hp, hlater⟩ |
      ⟨p, later, rfl, hp, hlater⟩
    -- The field has no entry.
    · exact .inl ⟨_, hothers own hmissing,
        Fields.collect?_eq_none name [] (rest.entries vs) (show 0 ≠ 1 by decide)⟩
    -- It has two.
    · exact .inl ⟨.inl v :: .inl v' :: (rest.entries vs).map .inr,
        .cons (hvalue v hvs.1 p hp) (.cons (hvalue v' hv' p' hp') (hothers later hlater)),
        Fields.collect?_eq_none name [v, v'] (rest.entries vs) (show 2 ≠ 1 by decide)⟩
    -- Its own entry is broken, or that of a later field is.
    · have hbroken := Shape.refuses_of_breaks shape depth (by omega) hshape v hvs.1 hp
      exact .inr ⟨none :: ((rest.entries vs).map .inr).map some,
        .cons (.own hlen hbroken) (List.forall₂_map_right_iff.mpr (hothers later hlater)),
        List.mem_cons_self⟩
    · exact (Fields.refuses_of_breakOne rest depth (by omega) hrest vs hvs.2 hlater).later hname
        (hvalue v hvs.1 p hp)

/-- A variant whose payload is broken reads as no value. -/
theorem Variants.refuses_of_breaks (vs : Variants) (depth : Nat) (hdepth : vs.depth ≤ depth)
    (hplain : vs.isPlain) (v : vs.Val) (hv : vs.fits v) {bs : Bytes}
    (h : vs.Breaks (Item .readable) depth v bs) : vs.Reads depth bs none := by
  match vs, v with
  | .unit _ _, .inl () => exact h.elim
  | .unit name rest, .inr v =>
    simp only [Variants.isPlain, Bool.and_eq_true, decide_eq_true_eq] at hplain
    exact (Variants.refuses_of_breaks rest depth hdepth hplain.2 v hv h).unit hplain.1.2
  | .payload name shape rest, .inl v =>
    simp only [Variants.depth] at hdepth
    simp only [Variants.isPlain, Bool.and_eq_true, decide_eq_true_eq] at hplain
    obtain ⟨p, hp, rfl⟩ := h
    exact .own hplain.1.1.1 (Shape.refuses_of_breaks shape depth (by omega) hplain.1.2 v hv hp)
  | .payload name shape rest, .inr v =>
    simp only [Variants.depth] at hdepth
    simp only [Variants.isPlain, Bool.and_eq_true, decide_eq_true_eq] at hplain
    exact (Variants.refuses_of_breaks rest depth (by omega) hplain.2 v hv h).payload hplain.1.1.2

end

/-! ## Reading around extra content -/

/-- A record that has all its fields is refused for one more entry that is not passed over. -/
theorem Shape.refuses_of_extra {fields : Fields} {depth : Nat} {vs : fields.Vals} {own parts : List Bytes}
    {n : Argument} {entry : Bytes} (hdepth : fields.depth ≤ depth) (hplain : fields.isPlain)
    (hvs : fields.fits vs) (hown : fields.SpellEach (Item .readable) depth vs own)
    (hentry : (fields.anEntry depth).Rejects entry)
    (hparts : parts.Perm (entry :: own)) (hn : n.value = parts.length) :
    (Shape.record fields).Reads (depth + 1) (n.write 5 ++ parts.flatten) none := by
  have hreads := Fields.reads_of_spellEach fields depth hdepth hplain vs hvs hown
  have hall : List.Forall₂ (fields.anEntry depth).Answers (entry :: own)
      (none :: (fields.entries vs).map some) :=
    .cons hentry (List.forall₂_map_right_iff.mpr (hreads.imp fun _ _ h => h.answers))
  obtain ⟨os, hanswers, hperm⟩ := List.perm_comp_forall₂ hparts hall
  have hmem : none ∈ os := hperm.mem_iff.mpr List.mem_cons_self
  exact Shape.reads_record (o := none) hn ((Answers.times_of_mem hanswers hmem).bind _)

theorem Shape.refuses_writeWith {fields : Fields} {depth : Nat} {vs : fields.Vals} {name : String}
    {item : Bytes} (hdepth : fields.depth ≤ depth) (hplain : (Shape.record fields).isPlain)
    (hvs : fields.fits vs) (hlength : fields.length + 1 < UInt64.size)
    (hlen : name.utf8ByteSize ≤ nameLimit) (hname : name ∉ fields.names)
    (hitem : (skipItem depth).Rejects item) :
    (Shape.record fields).Reads (depth + 1) (fields.writeWith (writeText name ++ item) vs) none := by
  simp only [Shape.isPlain, Bool.and_eq_true] at hplain
  obtain ⟨n, hn, hhead⟩ := Argument.exists_write_eq hlength
  have hcontent := Fields.answers_noField (o := none) hname hitem
  have hentry : (fields.anEntry depth).Rejects (writeText name ++ item) :=
    .after (takes_readName hlen) hcontent
  rw [Fields.writeWith, ← hhead]
  refine Shape.refuses_of_extra hdepth hplain.1 hvs
    (Fields.spellEach_parts _ fields depth hplain.1 vs hvs) hentry ?_ ?_
  · exact List.Perm.cons _ (List.reverse_perm _)
  · rw [hn, List.length_cons, List.length_reverse, Fields.length_parts]

/-! ## Whole values -/

theorem Shape.decode_of_refuses {s : Shape} {bs : Bytes} (h : s.Reads depthLimit bs none) :
    s.decode (formatVersion :: bs) = .error (.decodingFailed "not an item of this type") := by
  have hread : (s.read depthLimit).run bs = none := h.rejects.run_eq_none
  simp [Shape.decode, hread]

end ObjectStore.Cbor
