import ObjectStore.Cbor.Envelope

/-!
# Layouts

A layout ties a type to a shape, so that `encode` and `decode` work on values of that type. Numbers,
texts, lists, maps, options and pairs have theirs here; the types of objects have theirs beside their
shapes.
-/

namespace ObjectStore.Cbor

/-- A type whose values are laid out by a shape. -/
class Layout (α : Type) where
  /-- The shape of the type. -/
  shape : Shape
  /-- A value of the type as a value of the shape. -/
  toVal : α → shape.Val
  /-- A value of the shape as a value of the type. -/
  ofVal : shape.Val → α
  /-- Nothing is lost on the way to the shape. -/
  ofVal_toVal : ∀ a, ofVal (toVal a) = a
  /-- Nothing is lost on the way back. -/
  toVal_ofVal : ∀ v, toVal (ofVal v) = v

/-- Encodes a value. -/
def encode {α : Type} [Layout α] (a : α) : Except CodecError Bytes :=
  (Layout.shape α).encode (Layout.toVal a)

/-- Decodes a value. -/
def decode {α : Type} [Layout α] (bs : Bytes) : Except CodecError α :=
  ((Layout.shape α).decode bs).map Layout.ofVal

/-! ## Plain values -/

/-- The layout of a type that is the value type of a shape. -/
@[reducible]
def Layout.ofShape (s : Shape) : Layout s.Val where
  shape := s
  toVal v := v
  ofVal v := v
  ofVal_toVal _ := rfl
  toVal_ofVal _ := rfl

instance : Layout UInt8 := .ofShape (.word .u8)

instance : Layout UInt32 := .ofShape (.word .u32)

instance : Layout UInt64 := .ofShape (.word .u64)

instance : Layout Int32 := .ofShape (.word .i32)

instance : Layout Int64 := .ofShape (.word .i64)

instance : Layout Bool := .ofShape .bool

instance : Layout String := .ofShape .text

/-! ## Collections -/

instance {α : Type} [Layout α] : Layout (List α) where
  shape := .list (Layout.shape α)
  toVal as := as.map Layout.toVal
  ofVal vs := List.map (Layout.ofVal (α := α)) vs
  ofVal_toVal as := by simp [Function.comp_def, Layout.ofVal_toVal]
  toVal_ofVal vs := by simp [Function.comp_def, Layout.toVal_ofVal]

instance {α : Type} [Layout α] : Layout (SortedMap String α) where
  shape := .dict (Layout.shape α)
  toVal m := m.map Layout.toVal
  ofVal m := SortedMap.map (Layout.ofVal (α := α)) m
  ofVal_toVal m := SortedMap.map_map_of_leftInverse Layout.ofVal_toVal m
  toVal_ofVal m := SortedMap.map_map_of_leftInverse (Layout.toVal_ofVal (α := α)) m

instance {α : Type} [Layout α] : Layout (Option α) where
  shape := .option (Layout.shape α)
  toVal a := a.map Layout.toVal
  ofVal v := Option.map (Layout.ofVal (α := α)) v
  ofVal_toVal a := by simp [Function.comp_def, Layout.ofVal_toVal]
  toVal_ofVal v := by simp [Function.comp_def, Layout.toVal_ofVal]

instance {α β : Type} [Layout α] [Layout β] : Layout (α × β) where
  shape := .pair (Layout.shape α) (Layout.shape β)
  toVal p := (Layout.toVal p.1, Layout.toVal p.2)
  ofVal v := (Layout.ofVal (α := α) v.1, Layout.ofVal (α := β) v.2)
  ofVal_toVal p := by simp [Layout.ofVal_toVal]
  toVal_ofVal v := by simp [Layout.toVal_ofVal]

end ObjectStore.Cbor
