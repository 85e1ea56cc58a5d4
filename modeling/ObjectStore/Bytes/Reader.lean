import ObjectStore.Bytes

/-!
# Readers

A reader takes a value off the front of a byte string, or fails. What it answers depends only on the
bytes that it takes: a reader that succeeds on `front ++ rest` and leaves `rest` gives the same value
before any other rest. That law, `TakesFront`, is part of the type, so everything built from readers
with the combinators of this module has it too.

Main statement: `run_eq_none_of_isPrefix`, that a byte string which a reader takes to its end has no
shorter front part on which the reader succeeds.
-/

namespace ObjectStore

/-- Success leaves a rest behind, and the value does not depend on that rest. -/
def TakesFront {α : Type} (run : Bytes → Option (α × Bytes)) : Prop :=
  ∀ ⦃bs : Bytes⦄ ⦃a : α⦄ ⦃rest : Bytes⦄, run bs = some (a, rest) →
    ∃ front, bs = front ++ rest ∧ ∀ more, run (front ++ more) = some (a, more)

/-- Takes a value off the front of a byte string. -/
structure Reader (α : Type) where
  /-- The value and the bytes after it. -/
  run : Bytes → Option (α × Bytes)
  /-- The value depends on the bytes taken and on nothing else. -/
  takesFront : TakesFront run

namespace Reader

variable {α β σ : Type}

/-- Reading on past the end of what a reader needs changes nothing. -/
theorem run_append {r : Reader α} {bs rest : Bytes} {a : α} (h : r.run bs = some (a, rest))
    (more : Bytes) : r.run (bs ++ more) = some (a, rest ++ more) := by
  obtain ⟨front, rfl, hfront⟩ := r.takesFront h
  rw [List.append_assoc]
  exact hfront _

/-- What a reader takes to its end has no shorter front part that the reader takes. -/
theorem run_eq_none_of_isPrefix {r : Reader α} {bs front : Bytes} {a : α}
    (h : r.run bs = some (a, [])) (hfront : front <+: bs) (hne : front ≠ bs) :
    r.run front = none := by
  obtain ⟨tail, rfl⟩ := hfront
  cases hrun : r.run front with
  | none => rfl
  | some found =>
    obtain ⟨b, rest⟩ := found
    -- Success on the front part would go on to the whole and leave the tail over.
    have hlong := run_append hrun tail
    rw [h] at hlong
    simp at hlong
    simp [hlong.2.2] at hne

/-! ## Basic readers -/

/-- Takes nothing. -/
protected def pure (a : α) : Reader α where
  run bs := some (a, bs)
  takesFront := by
    rintro bs b rest h
    obtain ⟨rfl, rfl⟩ := Prod.mk.inj (Option.some.inj h)
    exact ⟨[], rfl, fun _ => rfl⟩

/-- Never succeeds. -/
def fail : Reader α where
  run _ := none
  takesFront := by
    rintro bs b rest h
    cases h

/-- Runs one reader, then the one that its value chooses. -/
def bindRun (r : Reader α) (f : α → Reader β) (bs : Bytes) : Option (β × Bytes) :=
  match r.run bs with
  | none => none
  | some (a, rest) => (f a).run rest

theorem takesFront_bindRun (r : Reader α) (f : α → Reader β) : TakesFront (bindRun r f) := by
  intro bs b rest h
  unfold bindRun at h
  split at h
  · cases h
  · rename_i a middle hr
    obtain ⟨front, rfl, hfront⟩ := r.takesFront hr
    obtain ⟨front', rfl, hfront'⟩ := (f a).takesFront h
    -- What both take together is what the first takes, then what the second takes.
    refine ⟨front ++ front', by rw [List.append_assoc], fun more => ?_⟩
    rw [List.append_assoc, bindRun, hfront]
    exact hfront' more

/-- One reader after the other, the second chosen by the value of the first. -/
protected def bind (r : Reader α) (f : α → Reader β) : Reader β where
  run := bindRun r f
  takesFront := takesFront_bindRun r f

instance : Monad Reader where
  pure := Reader.pure
  bind := Reader.bind

@[simp]
theorem run_pure (a : α) (bs : Bytes) : (pure a : Reader α).run bs = some (a, bs) := rfl

@[simp]
theorem run_fail (bs : Bytes) : (fail : Reader α).run bs = none := rfl

@[simp]
theorem run_bind (r : Reader α) (f : α → Reader β) (bs : Bytes) :
    (r >>= f).run bs =
      match r.run bs with
      | none => none
      | some (a, rest) => (f a).run rest := rfl

@[simp]
theorem run_map (f : α → β) (r : Reader α) (bs : Bytes) :
    (f <$> r).run bs =
      match r.run bs with
      | none => none
      | some (a, rest) => some (f a, rest) := rfl

/-- Takes nothing, and succeeds if there is a value. -/
def ofOption : Option α → Reader α
  | none => fail
  | some a => pure a

/-- Takes one byte. -/
def byte : Reader UInt8 where
  run
    | [] => none
    | b :: rest => some (b, rest)
  takesFront := by
    intro bs b rest h
    cases bs with
    | nil => cases h
    | cons c cs =>
      obtain ⟨rfl, rfl⟩ := Prod.mk.inj (Option.some.inj h)
      exact ⟨[c], rfl, fun _ => rfl⟩

/-- Takes exactly `n` bytes. -/
def take (n : Nat) : Reader Bytes where
  run := Bytes.splitFront? n
  takesFront := by
    intro bs front rest h
    obtain ⟨rfl, hlen⟩ := Bytes.splitFront?_eq_some_iff.mp h
    exact ⟨front, rfl, fun more => Bytes.splitFront?_eq_some_iff.mpr ⟨rfl, hlen⟩⟩

/-! ## Repetition -/

/-- The same reader `n` times. -/
def times (r : Reader α) : (n : Nat) → Reader (List α)
  | 0 => pure []
  | n + 1 => do
    let a ← r
    let rest ← times r n
    pure (a :: rest)

/-- Goes from state to state until a step gives a value. A step that leaves a state behind must have
taken something, else the loop fails. -/
def loopRun (step : σ → Reader (σ ⊕ α)) (s : σ) (bs : Bytes) : Option (α × Bytes) :=
  match (step s).run bs with
  | none => none
  | some (.inr a, rest) => some (a, rest)
  | some (.inl s', rest) => if rest.length < bs.length then loopRun step s' rest else none
termination_by bs.length

theorem takesFront_loopRun (step : σ → Reader (σ ⊕ α)) (s : σ) : TakesFront (loopRun step s) := by
  intro bs a rest h
  fun_induction loopRun step s bs with
  | case1 => cases h
  | case2 s bs a' rest' hstep =>
    obtain ⟨rfl, rfl⟩ := Prod.mk.inj (Option.some.inj h)
    obtain ⟨front, rfl, hfront⟩ := (step s).takesFront hstep
    refine ⟨front, rfl, fun more => ?_⟩
    rw [loopRun, hfront]
  | case3 s bs s' rest' hstep hlt ih =>
    obtain ⟨front, rfl, hfront⟩ := (step s).takesFront hstep
    obtain ⟨front', rfl, hfront'⟩ := ih h
    -- The step has taken at least one byte, so it has before any other rest too.
    have hpos : 0 < front.length := by
      simp only [List.length_append] at hlt
      omega
    refine ⟨front ++ front', by rw [List.append_assoc], fun more => ?_⟩
    rw [List.append_assoc, loopRun, hfront]
    simp only [List.length_append]
    rw [if_pos (by omega)]
    exact hfront' more
  | case4 => cases h

/-- Goes from state to state until a step gives a value. -/
def loop (step : σ → Reader (σ ⊕ α)) (s : σ) : Reader α where
  run := loopRun step s
  takesFront := takesFront_loopRun step s

/-- The byte that ends what was opened without a length. -/
def stopByte : UInt8 := 0xFF

/-- Takes the stop byte, or else a value by a reader that has to take at least one byte. -/
def stopOrRun (r : Reader α) : Bytes → Option (Option α × Bytes)
  | [] => none
  | b :: bs =>
    if b = stopByte then some (none, bs)
    else
      match r.run (b :: bs) with
      | none => none
      | some (a, rest) => if rest.length ≤ bs.length then some (some a, rest) else none

theorem takesFront_stopOrRun (r : Reader α) : TakesFront (stopOrRun r) := by
  intro bs found rest h
  unfold stopOrRun at h
  split at h
  · cases h
  · rename_i b bs
    split at h
    · rename_i hb
      obtain ⟨rfl, rfl⟩ := Prod.mk.inj (Option.some.inj h)
      exact ⟨[b], rfl, fun more => by simp [stopOrRun, hb]⟩
    · rename_i hb
      split at h
      · cases h
      · rename_i a rest' hr
        split at h
        · rename_i hle
          obtain ⟨rfl, rfl⟩ := Prod.mk.inj (Option.some.inj h)
          obtain ⟨front, heq, hfront⟩ := r.takesFront hr
          cases front with
          | nil =>
            -- A reader that takes nothing leaves too much to pass the test.
            rw [List.nil_append] at heq
            subst heq
            exact absurd hle (Nat.not_succ_le_self _)
          | cons c front =>
            obtain ⟨rfl, rfl⟩ := List.cons.inj heq
            refine ⟨b :: front, rfl, fun more => ?_⟩
            have hrun := hfront more
            rw [List.cons_append] at hrun
            simp [stopOrRun, hb, hrun]
        · cases h

/-- Takes the stop byte, or else a value by a reader that has to take at least one byte. -/
def stopOr (r : Reader α) : Reader (Option α) where
  run := stopOrRun r
  takesFront := takesFront_stopOrRun r

/-- The same reader until the stop byte. -/
def untilStop (r : Reader α) : Reader (List α) :=
  loop
    (fun acc => do
      match ← stopOr r with
      | none => pure (.inr acc.reverse)
      | some a => pure (.inl (a :: acc)))
    []

/-- The same reader as often as a count says, or until the stop byte where there is no count. -/
def counted (r : Reader α) : (count : Option Nat) → Reader (List α)
  | some n => times r n
  | none => untilStop r

end Reader

end ObjectStore
