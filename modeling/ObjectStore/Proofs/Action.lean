import ObjectStore.Action

/-!
# Reasoning about actions

`a.Ensures s ok failed` says what the action `a` does from the state `s`: where it answers a value,
`ok` holds of the value and the state left behind, and where it answers an error, `failed` does. There
is one rule for each way of building actions, so that what a composite action ensures follows from
what its parts do.

Main statements: `Ensures.bind` and `ensures_mapError`.
-/

namespace ObjectStore

/-! ## Answers -/

namespace Answer

variable {ε ε' α β : Type}

theorem ok_bind (a : α) (f : α → Except ε β) : Except.ok a >>= f = f a := rfl

theorem mapError_ok (f : ε → ε') (a : α) : (Except.ok a).mapError f = .ok a := rfl

theorem bind_eq_ok_iff {r : Except ε α} {f : α → Except ε β} {b : β} :
    r >>= f = .ok b ↔ ∃ a, r = .ok a ∧ f a = .ok b := by
  cases r with
  | error e => simp [bind, Except.bind]
  | ok a => simp [bind, Except.bind]

theorem bind_eq_error_iff {r : Except ε α} {f : α → Except ε β} {e : ε} :
    r >>= f = .error e ↔ r = .error e ∨ ∃ a, r = .ok a ∧ f a = .error e := by
  cases r with
  | error e' => simp [bind, Except.bind]
  | ok a => simp [bind, Except.bind]

/-- A row of answers fails where one of them does. -/
theorem mapM_eq_error {f : α → Except ε β} {l : List α} {e : ε} (h : l.mapM f = .error e) :
    ∃ a ∈ l, f a = .error e := by
  induction l with
  | nil => cases h
  | cons a l ih =>
      rw [List.mapM_cons] at h
      rcases bind_eq_error_iff.mp h with hfirst | ⟨b, -, hlater⟩
      · exact ⟨a, List.mem_cons_self, hfirst⟩
      · rcases bind_eq_error_iff.mp hlater with hlater | ⟨bs, -, hnever⟩
        · obtain ⟨a', ha', hfails⟩ := ih hlater
          exact ⟨a', List.mem_cons_of_mem a ha', hfails⟩
        · cases hnever

theorem map_eq_ok_iff {f : α → β} {r : Except ε α} {b : β} :
    r.map f = .ok b ↔ ∃ a, r = .ok a ∧ f a = b := by
  cases r <;> simp [Except.map]

theorem mapError_eq_ok_iff {f : ε → ε'} {r : Except ε α} {a : α} :
    r.mapError f = .ok a ↔ r = .ok a := by
  cases r with
  | error e =>
      constructor
      · intro h
        cases h
      · intro h
        cases h
  | ok a' =>
      constructor
      · intro h
        cases h
        rfl
      · intro h
        cases h
        rfl

/-- Whether an answer is a given value can be decided without comparing errors. -/
theorem toOption_eq_some_iff {r : Except ε α} {a : α} : r.toOption = some a ↔ r = .ok a := by
  cases r with
  | error e => simp [Except.toOption]
  | ok a' => simp [Except.toOption]

/-- Where all answers are values, they are the values. -/
theorem map_eq_map_ok {f : α → Except ε β} {l : List α} (h : ∀ a ∈ l, ∃ b, f a = .ok b) :
    l.map f = (l.filterMap fun a => (f a).toOption).map .ok := by
  induction l with
  | nil => rfl
  | cons a l ih =>
      obtain ⟨b, hb⟩ := h a List.mem_cons_self
      have hrest := ih fun a' ha' => h a' (List.mem_cons_of_mem a ha')
      simp [hb, hrest, Except.toOption]

/-- What holds of each element and its answer holds of the whole rows. -/
theorem map_eq_map_of_ok {γ : Type} {f : α → Except ε β} {l : List α} {bs : List β} {g : α → γ}
    {k : β → γ} (h : l.map f = bs.map .ok) (hg : ∀ a ∈ l, ∀ b, f a = .ok b → g a = k b) :
    l.map g = bs.map k := by
  induction l generalizing bs with
  | nil =>
      rw [List.map_nil, eq_comm, List.map_eq_nil_iff] at h
      rw [h, List.map_nil, List.map_nil]
  | cons a l ih =>
      rw [List.map_cons] at h
      obtain ⟨b, bs, rfl, hb, hrest⟩ := List.map_eq_cons_iff.mp h.symm
      rw [List.map_cons, List.map_cons, hg a List.mem_cons_self b hb.symm,
        ih hrest.symm fun a' ha' => hg a' (List.mem_cons_of_mem a ha')]

end Answer

namespace Action

variable {σ ε ε' α β : Type}

/-! ## Running actions -/

@[simp]
theorem exec_pure (a : α) (s : σ) : exec (pure a : Action σ ε α) s = (.ok a, s) := rfl

@[simp]
theorem exec_throw (e : ε) (s : σ) : exec (throw e : Action σ ε α) s = (.error e, s) := rfl

theorem exec_bind (a : Action σ ε α) (f : α → Action σ ε β) (s : σ) :
    exec (a >>= f) s =
      match exec a s with
      | (.ok v, s') => exec (f v) s'
      | (.error e, s') => (.error e, s') := by
  show StateT.run (ExceptT.run (a >>= f)) s = _
  rw [ExceptT.run_bind, StateT.run_bind]
  show (match StateT.run (ExceptT.run a) s with
    | (r, s') => _) = _
  unfold exec
  rcases StateT.run (ExceptT.run a) s with ⟨v | e, s'⟩ <;> rfl

@[simp]
theorem exec_mapError (f : ε → ε') (a : Action σ ε α) (s : σ) :
    exec (mapError f a) s = ((exec a s).1.mapError f, (exec a s).2) := rfl

@[simp]
theorem exec_answer (r : Except ε α) (s : σ) : exec (answer r : Action σ ε α) s = (r, s) := by
  cases r <;> rfl

@[simp]
theorem exec_always (m : StateM σ α) (s : σ) :
    exec (always m : Action σ ε α) s = (.ok (m.run s).1, (m.run s).2) := rfl

@[simp]
theorem run_outcome (a : Action σ ε α) (s : σ) : (outcome a).run s = exec a s := rfl

@[simp]
theorem exec_get (s : σ) : exec (get : Action σ ε σ) s = (.ok s, s) := rfl

@[simp]
theorem exec_set (s s' : σ) : exec (set s' : Action σ ε Unit) s = (.ok (), s') := rfl

@[simp]
theorem exec_modify (f : σ → σ) (s : σ) : exec (modify f : Action σ ε Unit) s = (.ok (), f s) := rfl

/-! ## What actions ensure -/

/-- Where the action answers a value, `ok` holds, and where it answers an error, `failed` does. -/
def Ensures (a : Action σ ε α) (s : σ) (ok : α → σ → Prop) (failed : ε → σ → Prop) : Prop :=
  match exec a s with
  | (.ok v, s') => ok v s'
  | (.error e, s') => failed e s'

variable {a : Action σ ε α} {s : σ} {ok : α → σ → Prop} {failed : ε → σ → Prop}

theorem ensures_iff :
    a.Ensures s ok failed ↔
      (∀ v s', exec a s = (.ok v, s') → ok v s') ∧
        ∀ e s', exec a s = (.error e, s') → failed e s' := by
  unfold Ensures
  rcases exec a s with ⟨e | v, s'⟩ <;> simp

theorem ensures_pure {v : α} (h : ok v s) : (pure v : Action σ ε α).Ensures s ok failed := h

theorem ensures_throw {e : ε} (h : failed e s) :
    (throw e : Action σ ε α).Ensures s ok failed := h

theorem ensures_answer {r : Except ε α} (hok : ∀ v, r = .ok v → ok v s)
    (hfailed : ∀ e, r = .error e → failed e s) : (answer r).Ensures s ok failed := by
  cases r with
  | ok v => exact hok v rfl
  | error e => exact hfailed e rfl

theorem ensures_always {m : StateM σ α} (h : ok (m.run s).1 (m.run s).2) :
    (always m : Action σ ε α).Ensures s ok failed := h

theorem ensures_get {ok : σ → σ → Prop} (h : ok s s) :
    (get : Action σ ε σ).Ensures s ok failed := h

theorem ensures_set {ok : Unit → σ → Prop} {s' : σ} (h : ok () s') :
    (set s' : Action σ ε Unit).Ensures s ok failed := h

theorem ensures_modify {ok : Unit → σ → Prop} {f : σ → σ} (h : ok () (f s)) :
    (modify f : Action σ ε Unit).Ensures s ok failed := h

/-- One action after the other: `P` holds between the two. -/
theorem Ensures.bind {f : α → Action σ ε β} {P : α → σ → Prop} {ok : β → σ → Prop}
    (h : a.Ensures s P failed) (hf : ∀ v s', P v s' → (f v).Ensures s' ok failed) :
    (a >>= f).Ensures s ok failed := by
  unfold Ensures at h ⊢
  rw [exec_bind]
  generalize exec a s = r at h ⊢
  rcases r with ⟨e | v, s'⟩
  · exact h
  · exact hf v s' h

theorem ensures_mapError {f : ε → ε'} {failed : ε' → σ → Prop}
    (h : a.Ensures s ok fun e s' => failed (f e) s') : (mapError f a).Ensures s ok failed := by
  unfold Ensures at h ⊢
  rw [exec_mapError]
  generalize exec a s = r at h ⊢
  rcases r with ⟨e | v, s'⟩
  · exact h
  · exact h

/-- What an action ensures may be said more weakly. -/
theorem Ensures.weaken {ok' : α → σ → Prop} {failed' : ε → σ → Prop} (h : a.Ensures s ok failed)
    (hok : ∀ v s', ok v s' → ok' v s') (hfailed : ∀ e s', failed e s' → failed' e s') :
    a.Ensures s ok' failed' := by
  rw [ensures_iff] at h ⊢
  exact ⟨fun v s' hv => hok v s' (h.1 v s' hv), fun e s' he => hfailed e s' (h.2 e s' he)⟩

/-- Two things that an action ensures. -/
theorem Ensures.and {ok' : α → σ → Prop} {failed' : ε → σ → Prop} (h : a.Ensures s ok failed)
    (h' : a.Ensures s ok' failed') :
    a.Ensures s (fun v s' => ok v s' ∧ ok' v s') fun e s' => failed e s' ∧ failed' e s' := by
  rw [ensures_iff] at h h' ⊢
  exact ⟨fun v s' hv => ⟨h.1 v s' hv, h'.1 v s' hv⟩, fun e s' he => ⟨h.2 e s' he, h'.2 e s' he⟩⟩

/-- What holds of the state left behind in either case. -/
theorem Ensures.exec_snd {P : σ → Prop} (h : a.Ensures s (fun _ => P) fun _ => P) :
    P (exec a s).2 := by
  unfold Ensures at h
  generalize exec a s = r at h ⊢
  rcases r with ⟨e | v, s'⟩
  · exact h
  · exact h

end Action

end ObjectStore
