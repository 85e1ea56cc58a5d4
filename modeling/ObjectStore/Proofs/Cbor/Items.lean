import ObjectStore.Proofs.Cbor.Head

/-!
# Items of every form

An item can be spelled in many ways that the writer of values does not use: its head can be wider than it
needs to be, a string, an array or a map can be left open and ended by a stop, and tags can stand in front.
`Item` describes them all. Content of no interest is passed over in any of these forms, but not with
whatever is in it: texts have to be texts, of the simple values only four are known, and a number that is
spelled by its digits has to fit a signed word.

Main statements: `Item.takes_skipItem`, that what obeys these rules is passed over whole, and
`rejects_skipItem_simple`, `rejects_skipItem_text` and `rejects_skipItem_digits`, that what breaks one of them
is not.
-/

namespace ObjectStore.Cbor

open Reader (Takes Rejects)

/-! ## Arguments of any width -/

/-- The argument of a head in one of its forms: below `24` in the head itself, or in the bytes that
follow, as many as the form says. -/
structure Argument where
  /-- How the argument is spelled. -/
  form : Nat
  /-- The argument. -/
  value : Nat
  /-- The form has room for the argument. -/
  legal : form < 24 ∧ value = form ∨
    24 ≤ form ∧ form < 28 ∧ value < Bytes.capacity (Head.argumentWidth form)

namespace Argument

/-- The bytes of a head with a major type and an argument. -/
def write (n : Argument) (major : Nat) : Bytes :=
  if n.form < 24 then [UInt8.ofNat (32 * major + n.form)]
  else UInt8.ofNat (32 * major + n.form) :: Bytes.bigEndian (Head.argumentWidth n.form) n.value

theorem write_ne_nil (n : Argument) (major : Nat) : n.write major ≠ [] := by
  unfold write
  split <;> exact List.cons_ne_nil _ _

/-- A head reads back in every form of its argument. -/
theorem takes_read (n : Argument) {major : Nat} {h : Head} (hmajor : major < 8)
    (hh : Head.ofParts? major n.form n.value = some h) : Head.read.Takes (n.write major) h := by
  intro rest
  unfold write
  rcases n.legal with ⟨hform, hvalue⟩ | ⟨hlow, hhigh, hvalue⟩
  · rw [hvalue] at hh
    rw [if_pos hform, List.singleton_append, Head.read_cons_short hmajor hform, hh]
    rfl
  · rw [if_neg (by omega), List.cons_append, Head.read_cons_wide hmajor hlow hhigh hvalue, hh]
    rfl

/-- Simple values and floating-point numbers apart, the form makes no difference. -/
theorem takes_read_length (n : Argument) {major : Nat} {h : Head} (hmajor : major < 7)
    (hh : Head.ofParts? major 0 n.value = some h) : Head.read.Takes (n.write major) h := by
  have hform : n.form < 28 := by
    have hlegal := n.legal
    omega
  apply n.takes_read (by omega)
  rw [Head.ofParts?_of_form_lt hmajor hform, hh]

/-- The head of a simple value reads back. -/
theorem takes_read_simple (n : Argument) (hform : n.form ≤ 24) :
    Head.read.Takes (n.write 7) (.simple n.value) := by
  have hparts : Head.ofParts? 7 n.form n.value = some (.simple n.value) := by
    unfold Head.ofParts?
    rw [if_neg (by omega), if_neg (by omega)]
    exact if_pos hform
  exact n.takes_read (by decide) hparts

/-- The writer of heads uses one of the forms. -/
theorem exists_write_eq {n : Nat} (hn : n < UInt64.size) :
    ∃ a : Argument, a.value = n ∧ ∀ major, a.write major = Head.write major n := by
  unfold Head.write
  by_cases h₁ : n < 24
  · exact ⟨⟨n, n, .inl ⟨h₁, rfl⟩⟩, rfl, fun major => by simp [write, h₁]⟩
  by_cases h₂ : n < UInt8.size
  · exact ⟨⟨24, n, .inr ⟨by decide, by decide, h₂⟩⟩, rfl,
      fun major => by simp [write, h₁, h₂, Head.argumentWidth]⟩
  by_cases h₃ : n < UInt16.size
  · exact ⟨⟨25, n, .inr ⟨by decide, by decide, h₃⟩⟩, rfl,
      fun major => by simp [write, h₁, h₂, h₃, Head.argumentWidth]⟩
  by_cases h₄ : n < UInt32.size
  · exact ⟨⟨26, n, .inr ⟨by decide, by decide, h₄⟩⟩, rfl,
      fun major => by simp [write, h₁, h₂, h₃, h₄, Head.argumentWidth]⟩
  · exact ⟨⟨27, n, .inr ⟨by decide, by decide, hn⟩⟩, rfl,
      fun major => by simp [write, h₁, h₂, h₃, h₄, Head.argumentWidth]⟩

/-- A name reads back in every form of its length. -/
theorem takes_readName (n : Argument) {name : String} (hn : n.value = name.utf8ByteSize)
    (hname : name.utf8ByteSize ≤ nameLimit) :
    readName.Takes (n.write 3 ++ Utf8.encode name) (Utf8.encode name) := by
  have hread : Head.read.Takes (n.write 3) (.text (some name.utf8ByteSize)) :=
    n.takes_read_length (by decide) (by rw [hn]; rfl)
  have huntagged : Head.readUntagged.Takes (n.write 3) (.text (some name.utf8ByteSize)) :=
    hread.bind_nil (Head.takes_skipTags (by simp))
  exact huntagged.bind (takes_nameAfter hname)

end Argument

/-! ## Items -/

/-- What items may hold, beyond what their form asks of them. -/
structure Rules where
  /-- Which byte strings may be the content or a segment of a text. -/
  text : Bytes → Prop
  /-- Which simple values there may be. -/
  simple : Nat → Prop
  /-- Which byte strings of known length may stand right behind a tag. -/
  digits : (tag : Nat) → Bytes → Prop

/-- What is well formed may hold anything. -/
def Rules.wellFormed : Rules where
  text _ := True
  simple _ := True
  digits _ _ := True

/-- What content of no interest may hold. -/
def Rules.readable : Rules where
  text bs := (Utf8.decode? bs).isSome
  simple n := 20 ≤ n ∧ n ≤ 23
  digits tag bs := tag = 3 → bs.length ≤ wideNumberLimit →
    Bytes.ofBigEndian bs < Bytes.capacity wideNumberLimit / 2

/-- The head of a string, an array or a map without a length. -/
def openHead (major : Nat) : Bytes :=
  [UInt8.ofNat (32 * major + 31)]

/-- The bytes are one item that nests no deeper than `depth`. Arrays, maps and tags take one level each; a
tag that belongs to the spelling of a number takes none. -/
inductive Item (rules : Rules) : (depth : Nat) → Bytes → Prop where
  | number {depth major : Nat} (n : Argument) : major < 2 → Item rules depth (n.write major)
  | float {depth : Nat} (n : Argument) : 24 < n.form → Item rules depth (n.write 7)
  /-- Simple values below `32` have no form of two bytes. -/
  | simple {depth : Nat} (n : Argument) :
      n.form ≤ 24 → (n.form = 24 → 32 ≤ n.value) → rules.simple n.value →
      Item rules depth (n.write 7)
  | bytes {depth : Nat} (n : Argument) (bs : Bytes) :
      n.value = bs.length → Item rules depth (n.write 2 ++ bs)
  | text {depth : Nat} (n : Argument) (bs : Bytes) :
      n.value = bs.length → rules.text bs → Item rules depth (n.write 3 ++ bs)
  | openBytes {depth : Nat} (segments : List (Argument × Bytes)) :
      (∀ s ∈ segments, s.1.value = s.2.length) →
      Item rules depth (openHead 2 ++ (segments.flatMap (fun s => s.1.write 2 ++ s.2) ++
        [Reader.stopByte]))
  | openText {depth : Nat} (segments : List (Argument × Bytes)) :
      (∀ s ∈ segments, s.1.value = s.2.length) → (∀ s ∈ segments, rules.text s.2) →
      Item rules depth (openHead 3 ++ (segments.flatMap (fun s => s.1.write 3 ++ s.2) ++
        [Reader.stopByte]))
  | array {depth : Nat} (n : Argument) (items : List Bytes) :
      n.value = items.length → (∀ i ∈ items, Item rules depth i) →
      Item rules (depth + 1) (n.write 4 ++ items.flatMap id)
  | openArray {depth : Nat} (items : List Bytes) :
      (∀ i ∈ items, Item rules depth i) →
      Item rules (depth + 1) (openHead 4 ++ (items.flatMap id ++ [Reader.stopByte]))
  | map {depth : Nat} (n : Argument) (pairs : List (Bytes × Bytes)) :
      n.value = pairs.length → (∀ p ∈ pairs, Item rules depth p.1) →
      (∀ p ∈ pairs, Item rules depth p.2) →
      Item rules (depth + 1) (n.write 5 ++ pairs.flatMap fun p => p.1 ++ p.2)
  | openMap {depth : Nat} (pairs : List (Bytes × Bytes)) :
      (∀ p ∈ pairs, Item rules depth p.1) → (∀ p ∈ pairs, Item rules depth p.2) →
      Item rules (depth + 1) (openHead 5 ++ (pairs.flatMap (fun p => p.1 ++ p.2) ++
        [Reader.stopByte]))
  | tag {depth : Nat} (n : Argument) (item : Bytes) :
      Item rules depth item →
      (∀ (m : Argument) (bs : Bytes), item = m.write 2 ++ bs → m.value = bs.length →
        rules.digits n.value bs) →
      Item rules (depth + 1) (n.write 6 ++ item)
  | wideNumber {depth : Nat} (n m : Argument) (bs : Bytes) :
      n.value = 2 ∨ n.value = 3 → m.value = bs.length → bs.length ≤ wideNumberLimit →
      rules.digits n.value bs → Item rules depth (n.write 6 ++ (m.write 2 ++ bs))

/-! ## Items that are passed over -/

/-- What is passed over inside a head at a depth. -/
def skipInner : (depth : Nat) → Option (Head → Reader Unit)
  | 0 => none
  | depth + 1 => some (skipFrom depth)

theorem skipFrom_eq (depth : Nat) : skipFrom depth = skipAfter (skipInner depth) := by
  cases depth <;> rfl

/-- The bytes are a head and what is passed over behind it. The head is no stop, and if it is that of a
byte string of known length, it is spelled like one. -/
def Skips (depth : Nat) (bs : Bytes) : Prop :=
  ∃ head front body, bs = front ++ body ∧ Head.read.Takes front head ∧
    (skipFrom depth head).Takes body () ∧ head ≠ .stop ∧
    ∀ n, head = .bytes (some n) → n = body.length ∧ ∃ m : Argument, m.value = n ∧ front = m.write 2

theorem Skips.takes {depth : Nat} {bs : Bytes} (h : Skips depth bs) :
    (Head.read >>= skipFrom depth).Takes bs () := by
  obtain ⟨head, front, body, rfl, hhead, hbody, -⟩ := h
  exact hhead.bind hbody

/-- A key and its value are passed over one after the other. -/
theorem Skips.pair {depth : Nat} {key value : Bytes} (hkey : Skips depth key)
    (hvalue : Skips depth value) :
    (Head.read >>= skipFrom depth >>= fun _ => Head.read >>= skipFrom depth).Takes (key ++ value) () :=
  hkey.takes.bind hvalue.takes

/-- What is passed over does not start like a stop. -/
theorem Skips.first_ne_stop {depth : Nat} {bs : Bytes} (h : Skips depth bs) :
    ∃ first rest, bs = first :: rest ∧ first ≠ Reader.stopByte := by
  obtain ⟨head, front, body, rfl, hhead, -, hstop, -⟩ := h
  have hrun := hhead.run_nil
  cases front with
  | nil => cases hrun
  | cons first front =>
    refine ⟨first, front ++ body, rfl, ?_⟩
    rintro rfl
    -- The stop byte reads as the stop, whatever comes after it.
    have hread : Head.read.run (Reader.stopByte :: front) = some (.stop, front) := rfl
    rw [hread] at hrun
    simp only [Option.some.injEq, Prod.mk.injEq] at hrun
    exact hstop hrun.1.symm

/-! ### Strings -/

theorem takes_read_stop : Head.read.Takes [Reader.stopByte] .stop :=
  fun _ => rfl

/-- The segments of a string are taken up to its stop. -/
theorem takes_segments (lengthOf : Head → Option (Option Nat)) {major : Nat} (headOf : Nat → Head)
    (hmajor : major < 7) (hhead : ∀ n, Head.ofParts? major 0 n = some (headOf n))
    (hstop : ∀ n, headOf n ≠ .stop) (hlength : ∀ n, lengthOf (headOf n) = some (some n))
    {parts : List (Argument × Bytes)} (hparts : ∀ s ∈ parts, s.1.value = s.2.length) :
    (segments lengthOf).Takes
      (parts.flatMap (fun s => s.1.write major ++ s.2) ++ [Reader.stopByte])
      (parts.map Prod.snd) := by
  -- No segment is open between two segments.
  refine Takes.loop_times (fun acc => (0, acc)) ?_ (fun acc => ?_) []
  · rintro ⟨n, segment⟩ hs acc
    have hn : n.value = segment.length := hparts (n, segment) hs
    have hread : Head.read.Takes (n.write major) (headOf n.value) :=
      n.takes_read_length hmajor (hhead n.value)
    refine ⟨hread.bind ?_, List.append_ne_nil_of_left_ne_nil (n.write_ne_nil major) segment⟩
    have hne := hstop n.value
    have hopens := hlength n.value
    rw [hn] at hne hopens ⊢
    generalize headOf segment.length = head at hne hopens ⊢
    cases head with
    | stop => exact absurd rfl hne
    | _ =>
      simp only [hopens]
      exact (Takes.take segment).bind_nil (Takes.pure _)
  · exact takes_read_stop.bind_nil (Takes.pure _)

theorem takes_byteContent (bs : Bytes) : (byteContent (some bs.length)).Takes bs bs :=
  Takes.take bs

theorem takes_openBytes {parts : List (Argument × Bytes)}
    (hparts : ∀ s ∈ parts, s.1.value = s.2.length) :
    (byteContent none).Takes (parts.flatMap (fun s => s.1.write 2 ++ s.2) ++ [Reader.stopByte])
      (parts.map Prod.snd).flatten :=
  (takes_segments _ (fun n => .bytes (some n)) (by decide) (fun _ => rfl) (by simp) (fun _ => rfl)
    hparts).map _

/-- A text that is well formed is taken as that text. -/
theorem takes_textContent_of_valid {bs : Bytes} (h : (Utf8.decode? bs).isSome) :
    ∃ s, (textContent (some bs.length)).Takes bs s := by
  obtain ⟨s, hs⟩ := Option.isSome_iff_exists.mp h
  exact ⟨s, (Takes.take bs).bind_nil (Takes.ofOption hs)⟩

theorem exists_mapM_eq_some {α β : Type} {f : α → Option β} {l : List α}
    (h : ∀ a ∈ l, (f a).isSome) : ∃ bs, l.mapM f = some bs := by
  induction l with
  | nil => exact ⟨[], rfl⟩
  | cons a l ih =>
    obtain ⟨b, hb⟩ := Option.isSome_iff_exists.mp (h a List.mem_cons_self)
    obtain ⟨bs, hbs⟩ := ih fun a' ha' => h a' (List.mem_cons_of_mem a ha')
    exact ⟨b :: bs, by simp [hb, hbs]⟩

theorem takes_openText {parts : List (Argument × Bytes)}
    (hparts : ∀ s ∈ parts, s.1.value = s.2.length) (htexts : ∀ s ∈ parts, (Utf8.decode? s.2).isSome) :
    ∃ s, (textContent none).Takes
      (parts.flatMap (fun s => s.1.write 3 ++ s.2) ++ [Reader.stopByte]) s := by
  have hvalid : ∀ bs ∈ parts.map Prod.snd, (Utf8.decode? bs).isSome := by
    intro bs hbs
    obtain ⟨s, hs, rfl⟩ := List.mem_map.mp hbs
    exact htexts s hs
  obtain ⟨texts, htexts⟩ := exists_mapM_eq_some hvalid
  exact ⟨String.join texts,
    (takes_segments _ (fun n => .text (some n)) (by decide) (fun _ => rfl) (by simp) (fun _ => rfl)
      hparts).bind_nil ((Takes.ofOption htexts).nil_bind (Takes.pure _))⟩

/-! ### Numbers behind tags -/

theorem wideNumber?_eq_some_iff {tag n : Nat} {h : Head} :
    wideNumber? tag h = some n ↔
      h = .bytes (some n) ∧ (tag = 2 ∨ tag = 3) ∧ n ≤ wideNumberLimit := by
  unfold wideNumber?
  split
  · rename_i m
    by_cases hlimit : (tag = 2 ∨ tag = 3) ∧ m ≤ wideNumberLimit
    · rw [if_pos hlimit]
      simp only [Option.some.injEq, Head.bytes.injEq]
      constructor
      · rintro rfl
        exact ⟨rfl, hlimit⟩
      · exact fun h => h.1
    · rw [if_neg hlimit]
      simp only [reduceCtorEq, Head.bytes.injEq, Option.some.injEq, false_iff]
      rintro ⟨rfl, h⟩
      exact hlimit h
  · rename_i hother
    simp only [reduceCtorEq, false_iff]
    rintro ⟨rfl, -⟩
    exact hother n rfl

/-- Digits that a signed word has room for are taken. -/
theorem takes_skipWideNumber {tag : Nat} {bs : Bytes} (hlength : bs.length ≤ wideNumberLimit)
    (h : Rules.readable.digits tag bs) : (skipWideNumber tag bs.length).Takes bs () := by
  have hfits : ¬ (tag = 3 ∧ Bytes.capacity wideNumberLimit / 2 ≤ Bytes.ofBigEndian bs) := by
    rintro ⟨htag, hlarge⟩
    exact Nat.not_lt.mpr hlarge (h htag hlength)
  refine (Takes.take bs).bind_nil ?_
  rw [if_neg hfits]
  exact Takes.pure ()

/-! ### Items -/

/-- What obeys the rules is passed over. -/
theorem Item.skips {depth : Nat} {bs : Bytes} (h : Item .readable depth bs) : Skips depth bs := by
  induction h with
  | @number depth major n hmajor =>
    obtain rfl | rfl : major = 0 ∨ major = 1 := by omega
    · refine ⟨.unsigned n.value, n.write 0, [], by simp, n.takes_read_length (by decide) rfl, ?_,
        by simp, by simp⟩
      rw [skipFrom_eq]
      exact Takes.pure ()
    · refine ⟨.negative n.value, n.write 1, [], by simp, n.takes_read_length (by decide) rfl, ?_,
        by simp, by simp⟩
      rw [skipFrom_eq]
      exact Takes.pure ()
  | float n hform =>
    have hparts : Head.ofParts? 7 n.form n.value = some .float := by
      have hlegal := n.legal
      unfold Head.ofParts?
      rw [if_neg (by omega), if_neg (by omega)]
      exact if_neg (by omega)
    refine ⟨.float, n.write 7, [], by simp, n.takes_read (by decide) hparts, ?_, by simp, by simp⟩
    rw [skipFrom_eq]
    exact Takes.pure ()
  | simple n hform hwide hknown =>
    refine ⟨.simple n.value, n.write 7, [], by simp, n.takes_read_simple hform, ?_, by simp, by simp⟩
    have hknown : 20 ≤ n.value ∧ n.value ≤ 23 := hknown
    rw [skipFrom_eq, skipAfter, if_pos hknown]
    exact Takes.pure ()
  | bytes n bs hn =>
    refine ⟨.bytes (some n.value), n.write 2, bs, rfl, n.takes_read_length (by decide) rfl, ?_,
      by simp, ?_⟩
    · rw [skipFrom_eq, hn]
      exact (takes_byteContent bs).map _
    · rintro k hk
      simp only [Head.bytes.injEq, Option.some.injEq] at hk
      exact ⟨hk.symm.trans hn, n, hk, rfl⟩
  | text n bs hn htext =>
    obtain ⟨s, hs⟩ := takes_textContent_of_valid htext
    refine ⟨.text (some n.value), n.write 3, bs, rfl, n.takes_read_length (by decide) rfl, ?_,
      by simp, by simp⟩
    rw [skipFrom_eq, hn]
    exact hs.map _
  | openBytes parts hparts =>
    refine ⟨.bytes none, openHead 2, _, rfl, fun _ => rfl, ?_, by simp, by simp⟩
    rw [skipFrom_eq]
    exact (takes_openBytes hparts).map _
  | openText parts hparts htexts =>
    obtain ⟨s, hs⟩ := takes_openText hparts htexts
    refine ⟨.text none, openHead 3, _, rfl, fun _ => rfl, ?_, by simp, by simp⟩
    rw [skipFrom_eq]
    exact hs.map _
  | array n items hn _ ih =>
    have hitems := Takes.times fun i hi => (ih i hi).takes
    refine ⟨.array (some n.value), n.write 4, _, rfl, n.takes_read_length (by decide) rfl, ?_,
      by simp, by simp⟩
    rw [hn]
    exact hitems.map _
  | openArray items _ ih =>
    have hitems := Takes.untilStop (fun i hi => (ih i hi).takes)
      fun i hi => (ih i hi).first_ne_stop
    refine ⟨.array none, openHead 4, _, rfl, fun _ => rfl, ?_, by simp, by simp⟩
    exact hitems.map _
  | map n pairs hn _ _ ihkeys ihvalues =>
    have hpairs := Takes.times fun p hp => (ihkeys p hp).pair (ihvalues p hp)
    refine ⟨.map (some n.value), n.write 5, _, rfl, n.takes_read_length (by decide) rfl, ?_,
      by simp, by simp⟩
    rw [hn]
    exact hpairs.map _
  | openMap pairs _ _ ihkeys ihvalues =>
    have hpairs := Takes.untilStop (fun p hp => (ihkeys p hp).pair (ihvalues p hp)) (by
        intro p hp
        obtain ⟨first, rest, heq, hstop⟩ := (ihkeys p hp).first_ne_stop
        exact ⟨first, rest ++ p.2, by rw [heq, List.cons_append], hstop⟩)
    refine ⟨.map none, openHead 5, _, rfl, fun _ => rfl, ?_, by simp, by simp⟩
    exact hpairs.map _
  | tag n item _ hdigits ih =>
    obtain ⟨head, front, body, rfl, hhead, hbody, -, hbytes⟩ := ih
    refine ⟨.tag n.value, n.write 6, front ++ body, rfl, n.takes_read_length (by decide) rfl, ?_,
      by simp, by simp⟩
    refine hhead.bind ?_
    cases hwide : wideNumber? n.value head with
    | none => exact hbody
    | some k =>
      -- The tag belongs to a number, and its digits are what is tagged.
      obtain ⟨rfl, -, hlimit⟩ := wideNumber?_eq_some_iff.mp hwide
      obtain ⟨rfl, m, hm, rfl⟩ := hbytes k rfl
      exact takes_skipWideNumber hlimit (hdigits m body rfl hm)
  | wideNumber n m bs htag hm hlength hdigits =>
    refine ⟨.tag n.value, n.write 6, m.write 2 ++ bs, rfl, n.takes_read_length (by decide) rfl, ?_,
      by simp, by simp⟩
    rw [skipFrom_eq]
    have hwide : wideNumber? n.value (.bytes (some m.value)) = some bs.length :=
      wideNumber?_eq_some_iff.mpr ⟨by rw [hm], htag, hlength⟩
    refine (m.takes_read_length (by decide) rfl).bind ?_
    simp only [hwide]
    exact takes_skipWideNumber hlength hdigits

/-- An item that obeys the rules and nests no deeper than it may is passed over whole. -/
theorem Item.takes_skipItem {depth : Nat} {bs : Bytes} (h : Item .readable depth bs) :
    (skipItem depth).Takes bs () :=
  h.skips.takes

/-! ## Items that are not passed over -/

/-- An unknown simple value is not passed over. -/
theorem rejects_skipItem_simple {depth : Nat} (n : Argument) (hform : n.form ≤ 24)
    (h : ¬ Rules.readable.simple n.value) : (skipItem depth).Rejects (n.write 7) := by
  refine .after_whole (n.takes_read_simple hform) ?_
  have hunknown : ¬ (20 ≤ n.value ∧ n.value ≤ 23) := h
  rw [skipFrom_eq, skipAfter, if_neg hunknown]
  exact fun _ => rfl

/-- What stands where a text should and is none is not passed over. -/
theorem rejects_skipItem_text {depth : Nat} (n : Argument) {bs : Bytes} (hn : n.value = bs.length)
    (h : ¬ Rules.readable.text bs) : (skipItem depth).Rejects (n.write 3 ++ bs) := by
  have hnone : Utf8.decode? bs = none := Option.not_isSome_iff_eq_none.mp h
  refine .after (n.takes_read_length (by decide) (by rw [hn]; rfl)) ?_
  rw [skipFrom_eq]
  exact (Rejects.after_whole (Takes.take bs) (.ofOption hnone)).map _

/-- A negative number is not passed over if its digits do not fit. -/
theorem rejects_skipItem_digits {depth : Nat} (n m : Argument) {bs : Bytes} (hn : n.value = 3)
    (hm : m.value = bs.length) (hlength : bs.length ≤ wideNumberLimit)
    (h : ¬ Rules.readable.digits 3 bs) : (skipItem depth).Rejects (n.write 6 ++ (m.write 2 ++ bs)) := by
  have hlarge : Bytes.capacity wideNumberLimit / 2 ≤ Bytes.ofBigEndian bs := by
    by_contra hfits
    exact h fun _ _ => Nat.lt_of_not_le hfits
  have hwide : wideNumber? 3 (.bytes (some bs.length)) = some bs.length :=
    wideNumber?_eq_some_iff.mpr ⟨rfl, .inr rfl, hlength⟩
  refine .after (n.takes_read_length (by decide) (by rw [hn]; rfl)) ?_
  rw [skipFrom_eq]
  refine .after (m.takes_read_length (by decide) (by rw [hm]; rfl)) ?_
  simp only [hwide]
  refine .after_whole (Takes.take bs) ?_
  rw [if_pos ⟨rfl, hlarge⟩]
  exact fun _ => rfl

end ObjectStore.Cbor
