import ObjectStore.Cbor.Envelope

/-!
# What items open with

A shape that takes its item from the first head that is no tag says by that head what it is. A pair opens as
an array and a record as a map, so that no bytes are both, whatever follows.

Main statement: `not_decode_pair_record`.
-/

namespace ObjectStore.Cbor.Shape

variable {depth : Nat} {bs : Bytes}

/-- A shape whose tags are of no interest is read from the first head that is no tag. -/
theorem opens_of_read {s : Shape} {after : Head → Reader s.Val} {r : s.Val × Bytes}
    (hs : ∀ h, s.readAfter depth h = Head.skipTags h >>= after)
    (h : (s.read depth).run bs = some r) :
    ∃ head rest, Head.readUntagged.run bs = some (head, rest) ∧ (after head).run rest = some r := by
  rw [Shape.read, Reader.run_bind] at h
  rw [Head.readUntagged, Reader.run_bind]
  split at h
  · cases h
  · rw [hs, Reader.run_bind] at h
    split at h
    · cases h
    · rename_i head rest hskip
      exact ⟨head, rest, hskip, h⟩

/-- A pair opens as an array. -/
theorem array_of_read_pair {first second : Shape} {r : (pair first second).Val × Bytes}
    (h : ((pair first second).read depth).run bs = some r) :
    ∃ count rest, Head.readUntagged.run bs = some (.array count, rest) := by
  obtain ⟨head, rest, hhead, hafter⟩ := opens_of_read (fun _ => by rw [readAfter]) h
  cases head with
  | array count => exact ⟨count, rest, hhead⟩
  | _ => cases hafter

/-- A record opens as a map. -/
theorem map_of_read_record {fields : Fields} {r : (record fields).Val × Bytes}
    (h : ((record fields).read depth).run bs = some r) :
    ∃ count rest, Head.readUntagged.run bs = some (.map count, rest) := by
  obtain ⟨head, rest, hhead, hafter⟩ := opens_of_read (fun _ => by rw [readAfter]) h
  cases head with
  | map count => exact ⟨count, rest, hhead⟩
  | _ => cases hafter

/-- What is decoded is read from behind the version. -/
theorem read_of_decode {s : Shape} {v : s.Val} (h : s.decode bs = .ok v) :
    (s.read depthLimit).run bs.tail = some (v, []) := by
  unfold decode at h
  split at h
  · cases h
  · split at h
    · split at h
      · cases h
      · rename_i hread
        cases h
        exact hread
      · cases h
    · cases h

/-- No bytes are both a pair and a record. -/
theorem not_decode_pair_record {first second : Shape} {fields : Fields}
    {v : (pair first second).Val} {vs : (record fields).Val}
    (hpair : (pair first second).decode bs = .ok v) : (record fields).decode bs ≠ .ok vs := by
  intro hrecord
  obtain ⟨_, _, harray⟩ := array_of_read_pair (read_of_decode hpair)
  obtain ⟨_, _, hmap⟩ := map_of_read_record (read_of_decode hrecord)
  rw [harray] at hmap
  cases hmap

end ObjectStore.Cbor.Shape
