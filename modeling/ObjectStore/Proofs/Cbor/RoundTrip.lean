import ObjectStore.Proofs.Cbor.Spelling

/-!
# Written values read back

What `Shape.write` gives for a value is one of its spellings, and whatever spells a value is taken whole by
`Shape.read`, which answers the value.

Main statement: `decode_of_encode`.
-/

namespace ObjectStore.Cbor

/-- What spells a value decodes as the value. -/
theorem Shape.decode_of_spells {s : Shape} (hdepth : s.depth ≤ depthLimit) (hplain : s.isPlain)
    {v : s.Val} (hv : s.fits v) {bs : Bytes} (h : s.Spells (Item .readable) depthLimit v bs) :
    s.decode (formatVersion :: bs) = .ok v := by
  have hread : (s.read depthLimit).run bs = some (v, []) :=
    (s.reads_of_spells depthLimit hdepth hplain v hv h).takes.run_nil
  simp [Shape.decode, hread]

/-- A value that can be encoded decodes from its encoding. -/
theorem Shape.decode_of_encode {s : Shape} (hdepth : s.depth ≤ depthLimit) (hplain : s.isPlain)
    {v : s.Val} {bs : Bytes} (h : s.encode v = .ok bs) : s.decode bs = .ok v := by
  unfold Shape.encode at h
  split at h
  · rename_i hfits
    obtain rfl : formatVersion :: s.write v = bs := Except.ok.inj h
    exact Shape.decode_of_spells hdepth hplain hfits (s.spells_write _ depthLimit hplain v hfits)
  · cases h

variable {α : Type} [Layout α]

/-- A value that can be encoded decodes from its encoding. -/
theorem decode_of_encode (hdepth : (Layout.shape α).depth ≤ depthLimit)
    (hplain : (Layout.shape α).isPlain) {a : α} {bs : Bytes} (h : encode a = .ok bs) :
    decode bs = .ok a := by
  have hval := Shape.decode_of_encode hdepth hplain h
  simp [decode, hval, Except.map, Layout.ofVal_toVal]

end ObjectStore.Cbor
