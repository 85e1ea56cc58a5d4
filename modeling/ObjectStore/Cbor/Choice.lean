/-!
# Positions in a choice

The value of a choice is a nested sum, one summand per variant. These names say which variant is
meant by its position, in terms and in patterns alike.
-/

namespace ObjectStore.Cbor.Choice

variable {α β γ δ ε ζ η θ ι κ μ ν ξ ο π : Type}

/-- The first variant of a choice. -/
@[match_pattern, reducible]
def at0 (v : α) : α ⊕ β := .inl v

/-- The second variant of a choice. -/
@[match_pattern, reducible]
def at1 (v : β) : α ⊕ β ⊕ γ := .inr (at0 v)

/-- The third variant of a choice. -/
@[match_pattern, reducible]
def at2 (v : γ) : α ⊕ β ⊕ γ ⊕ δ := .inr (at1 v)

/-- The fourth variant of a choice. -/
@[match_pattern, reducible]
def at3 (v : δ) : α ⊕ β ⊕ γ ⊕ δ ⊕ ε := .inr (at2 v)

/-- The fifth variant of a choice. -/
@[match_pattern, reducible]
def at4 (v : ε) : α ⊕ β ⊕ γ ⊕ δ ⊕ ε ⊕ ζ := .inr (at3 v)

/-- The sixth variant of a choice. -/
@[match_pattern, reducible]
def at5 (v : ζ) : α ⊕ β ⊕ γ ⊕ δ ⊕ ε ⊕ ζ ⊕ η := .inr (at4 v)

/-- The seventh variant of a choice. -/
@[match_pattern, reducible]
def at6 (v : η) : α ⊕ β ⊕ γ ⊕ δ ⊕ ε ⊕ ζ ⊕ η ⊕ θ := .inr (at5 v)

/-- The eighth variant of a choice. -/
@[match_pattern, reducible]
def at7 (v : θ) : α ⊕ β ⊕ γ ⊕ δ ⊕ ε ⊕ ζ ⊕ η ⊕ θ ⊕ ι := .inr (at6 v)

/-- The ninth variant of a choice. -/
@[match_pattern, reducible]
def at8 (v : ι) : α ⊕ β ⊕ γ ⊕ δ ⊕ ε ⊕ ζ ⊕ η ⊕ θ ⊕ ι ⊕ κ := .inr (at7 v)

/-- The tenth variant of a choice. -/
@[match_pattern, reducible]
def at9 (v : κ) : α ⊕ β ⊕ γ ⊕ δ ⊕ ε ⊕ ζ ⊕ η ⊕ θ ⊕ ι ⊕ κ ⊕ μ := .inr (at8 v)

/-- The eleventh variant of a choice. -/
@[match_pattern, reducible]
def at10 (v : μ) : α ⊕ β ⊕ γ ⊕ δ ⊕ ε ⊕ ζ ⊕ η ⊕ θ ⊕ ι ⊕ κ ⊕ μ ⊕ ν := .inr (at9 v)

/-- The twelfth variant of a choice. -/
@[match_pattern, reducible]
def at11 (v : ν) : α ⊕ β ⊕ γ ⊕ δ ⊕ ε ⊕ ζ ⊕ η ⊕ θ ⊕ ι ⊕ κ ⊕ μ ⊕ ν ⊕ ξ := .inr (at10 v)

/-- The thirteenth variant of a choice. -/
@[match_pattern, reducible]
def at12 (v : ξ) : α ⊕ β ⊕ γ ⊕ δ ⊕ ε ⊕ ζ ⊕ η ⊕ θ ⊕ ι ⊕ κ ⊕ μ ⊕ ν ⊕ ξ ⊕ ο := .inr (at11 v)

/-- The fourteenth variant of a choice. -/
@[match_pattern, reducible]
def at13 (v : ο) : α ⊕ β ⊕ γ ⊕ δ ⊕ ε ⊕ ζ ⊕ η ⊕ θ ⊕ ι ⊕ κ ⊕ μ ⊕ ν ⊕ ξ ⊕ ο ⊕ π := .inr (at12 v)

end ObjectStore.Cbor.Choice
