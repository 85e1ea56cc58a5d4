import Mathlib.Data.List.Forall2
import ObjectStore.Bytes.Reader

/-!
# What a reader takes

`r.Takes bs a` says that the reader `r` takes exactly the bytes `bs` and answers `a`, whatever comes
after them. It is the one fact that round trips need of a reader, and it goes through the
combinators that readers are built from.

Main statements: `Takes.times` and `Takes.untilStop`, that a reader repeated as often as there are values,
or up to a stop, takes the bytes of these values one after the other, and `Answers.times_of_mem`, that it
fails where it fails at one of them.
-/

namespace ObjectStore.Reader

variable {α β σ : Type}

/-- The reader takes exactly these bytes and answers this value. -/
def Takes (r : Reader α) (bs : Bytes) (a : α) : Prop :=
  ∀ rest, r.run (bs ++ rest) = some (a, rest)

namespace Takes

variable {r : Reader α} {bs cs : Bytes} {a : α} {b : β}

theorem run_nil (h : r.Takes bs a) : r.run bs = some (a, []) := by
  simpa using h []

theorem pure (a : α) : (Pure.pure a : Reader α).Takes [] a :=
  fun _ => rfl

theorem bind {f : α → Reader β} (h : r.Takes bs a) (hf : (f a).Takes cs b) :
    (r >>= f).Takes (bs ++ cs) b := by
  intro rest
  rw [run_bind, List.append_assoc, h]
  exact hf rest

/-- A reader that takes nothing more may follow. -/
theorem bind_nil {f : α → Reader β} (h : r.Takes bs a) (hf : (f a).Takes [] b) :
    (r >>= f).Takes bs b := by
  simpa using h.bind hf

/-- A reader that has taken nothing may come before. -/
theorem nil_bind {f : α → Reader β} (h : r.Takes [] a) (hf : (f a).Takes cs b) :
    (r >>= f).Takes cs b := by
  simpa using h.bind hf

theorem map (f : α → β) (h : r.Takes bs a) : (f <$> r).Takes bs (f a) := by
  intro rest
  rw [run_map, h]

theorem ofOption {o : Option α} (h : o = some a) : (Reader.ofOption o).Takes [] a := by
  subst h
  exact pure a

theorem take (bs : Bytes) : (Reader.take bs.length).Takes bs bs :=
  fun _ => Bytes.splitFront?_eq_some_iff.mpr ⟨rfl, rfl⟩

/-- A loop that stops at its first step takes what the step takes. -/
theorem loop {step : σ → Reader (σ ⊕ α)} {s : σ} (h : (step s).Takes bs (.inr a)) :
    (Reader.loop step s).Takes bs a := by
  intro rest
  show loopRun step s (bs ++ rest) = some (a, rest)
  rw [loopRun, h]

/-- A loop that goes on takes what its first step takes, and then the rest. The step has to take
something, or else the loop gives up. -/
theorem loop_step {step : σ → Reader (σ ⊕ α)} {s t : σ} (h : (step s).Takes bs (.inl t))
    (hne : bs ≠ []) (hrest : (Reader.loop step t).Takes cs a) :
    (Reader.loop step s).Takes (bs ++ cs) a := by
  intro rest
  have hlt : (cs ++ rest).length < (bs ++ (cs ++ rest)).length := by
    have hpos := List.length_pos_iff.mpr hne
    simp only [List.length_append]
    omega
  show loopRun step s (bs ++ cs ++ rest) = some (a, rest)
  rw [loopRun, List.append_assoc, h]
  simp only
  rw [if_pos hlt]
  exact hrest rest

/-- A loop that takes one value after the other and then stops takes them all. What it has so far is kept
in reverse. -/
theorem loop_times {ν : Type} {step : σ → Reader (σ ⊕ List α)} (state : List α → σ) {write : ν → Bytes}
    {answer : ν → α} {stop : Bytes} {vs : List ν}
    (hitem : ∀ v ∈ vs, ∀ acc,
      (step (state acc)).Takes (write v) (.inl (state (answer v :: acc))) ∧ write v ≠ [])
    (hstop : ∀ acc, (step (state acc)).Takes stop (.inr acc.reverse)) (acc : List α) :
    (Reader.loop step (state acc)).Takes (vs.flatMap write ++ stop) (acc.reverse ++ vs.map answer) := by
  induction vs generalizing acc with
  | nil =>
    rw [List.flatMap_nil, List.nil_append, List.map_nil, List.append_nil]
    exact loop (hstop acc)
  | cons v vs ih =>
    obtain ⟨hv, hne⟩ := hitem v List.mem_cons_self acc
    have hvs := ih (fun v' hv' => hitem v' (List.mem_cons_of_mem v hv')) (answer v :: acc)
    rw [List.reverse_cons, List.append_assoc, List.singleton_append] at hvs
    rw [List.flatMap_cons, List.append_assoc, List.map_cons]
    exact loop_step hv hne hvs

/-- A reader that takes each value in turn, whichever way it is spelled, takes them all. -/
theorem times_of_forall₂ {ν : Type} {spells : Bytes → ν → Prop} {answer : ν → α} {parts : List Bytes}
    {vs : List ν} (hparts : List.Forall₂ spells parts vs)
    (h : ∀ v ∈ vs, ∀ p, spells p v → r.Takes p (answer v)) :
    (Reader.times r vs.length).Takes parts.flatten (vs.map answer) := by
  induction hparts with
  | nil => exact pure []
  | @cons p v parts vs hp _ ih =>
    have hv : r.Takes p (answer v) := h v List.mem_cons_self p hp
    have hvs := ih fun v' hv' => h v' (List.mem_cons_of_mem v hv')
    rw [List.flatten_cons, List.length_cons]
    exact hv.bind (hvs.bind_nil (pure _))

/-- A reader that takes each value in turn takes them all, with `write v` the bytes of `v` and
`answer v` the answer for them. -/
theorem times {ν : Type} {write : ν → Bytes} {answer : ν → α} {vs : List ν}
    (h : ∀ v ∈ vs, r.Takes (write v) (answer v)) :
    (Reader.times r vs.length).Takes (vs.flatMap write) (vs.map answer) := by
  have hwritten : List.Forall₂ (fun p v => p = write v) (vs.map write) vs :=
    List.forall₂_map_left_iff.mpr (List.forall₂_same.mpr fun _ _ => rfl)
  rw [List.flatMap_def]
  exact times_of_forall₂ hwritten fun v hv p hp => by
    subst hp
    exact h v hv

/-! ## Up to a stop -/

theorem stopOr_stop (r : Reader α) : (Reader.stopOr r).Takes [stopByte] none :=
  fun _ => rfl

/-- What does not start with the stop byte is left to the reader. -/
theorem stopOr_item {first : UInt8} (h : r.Takes (first :: bs) a) (hfirst : first ≠ stopByte) :
    (Reader.stopOr r).Takes (first :: bs) (some a) := by
  intro rest
  have hrun := h rest
  rw [List.cons_append] at hrun
  show stopOrRun r (first :: (bs ++ rest)) = _
  simp [stopOrRun, hfirst, hrun]

/-- A reader that takes each value in turn takes them all and then the stop. No value may look like the
stop, so each of them has to start with another byte. -/
theorem untilStop {ν : Type} {write : ν → Bytes} {answer : ν → α} {vs : List ν}
    (h : ∀ v ∈ vs, r.Takes (write v) (answer v))
    (hfirst : ∀ v ∈ vs, ∃ first bs, write v = first :: bs ∧ first ≠ stopByte) :
    (Reader.untilStop r).Takes (vs.flatMap write ++ [stopByte]) (vs.map answer) := by
  refine loop_times id ?_ (fun acc => ?_) []
  · intro v hv acc
    obtain ⟨first, bs, hwrite, hstop⟩ := hfirst v hv
    have hread := h v hv
    rw [hwrite] at hread ⊢
    exact ⟨(stopOr_item hread hstop).bind_nil (pure _), List.cons_ne_nil _ _⟩
  · exact (stopOr_stop r).bind_nil (pure _)

end Takes

/-! ## What a reader rejects -/

/-- The reader fails on these bytes, whatever comes after them. -/
def Rejects (r : Reader α) (bs : Bytes) : Prop :=
  ∀ rest, r.run (bs ++ rest) = none

namespace Rejects

variable {r : Reader α} {bs cs : Bytes} {a : α}

theorem run_eq_none (h : r.Rejects bs) : r.run bs = none := by
  simpa using h []

theorem append (h : r.Rejects bs) (cs : Bytes) : r.Rejects (bs ++ cs) := by
  intro rest
  rw [List.append_assoc]
  exact h _

theorem ofOption {o : Option α} (h : o = none) : (Reader.ofOption o).Rejects [] := by
  subst h
  exact fun _ => rfl

theorem bind (h : r.Rejects bs) (f : α → Reader β) : (r >>= f).Rejects bs := by
  intro rest
  rw [run_bind, h]

theorem map (h : r.Rejects bs) (f : α → β) : (f <$> r).Rejects bs := by
  intro rest
  rw [run_map, h]

/-- What was taken before does not help. -/
theorem after {f : α → Reader β} (h : r.Takes bs a) (hf : (f a).Rejects cs) :
    (r >>= f).Rejects (bs ++ cs) := by
  intro rest
  rw [run_bind, List.append_assoc, h]
  exact hf rest

/-- What was taken does not help if it comes to nothing. -/
theorem after_whole {f : α → Reader β} (h : r.Takes bs a) (hf : (f a).Rejects []) :
    (r >>= f).Rejects bs := by
  simpa using after h hf

/-- One part that is rejected is enough, if the parts before it are taken. -/
theorem times_of_forall₂ {ν : Type} {spells : Bytes → ν → Prop} {answer : ν → α} {parts : List Bytes}
    {vs : List ν} {p : Bytes} (hparts : List.Forall₂ spells parts vs)
    (h : ∀ v ∈ vs, ∀ p, spells p v → r.Takes p (answer v)) (hp : r.Rejects p) (more : List Bytes)
    (k : Nat) : (Reader.times r (vs.length + (k + 1))).Rejects (parts ++ p :: more).flatten := by
  induction hparts with
  | nil =>
    rw [List.length_nil, Nat.zero_add, List.nil_append, List.flatten_cons]
    exact (hp.append _).bind _
  | @cons p' v parts vs hp' _ ih =>
    have hv : r.Takes p' (answer v) := h v List.mem_cons_self p' hp'
    have hvs := ih fun v' hv' => h v' (List.mem_cons_of_mem v hv')
    rw [List.length_cons, Nat.succ_add, List.cons_append, List.flatten_cons]
    exact after hv (hvs.bind _)

end Rejects

/-! ## What comes of bytes -/

/-- The reader takes exactly these bytes and answers the value, or fails on them if there is none. -/
def Answers (r : Reader α) (bs : Bytes) : Option α → Prop
  | some a => r.Takes bs a
  | none => r.Rejects bs

namespace Answers

variable {r : Reader α} {bs cs : Bytes} {a : α} {o : Option α} {o' : Option β}

theorem map (h : r.Answers bs o) (f : α → β) : (f <$> r).Answers bs (o.map f) := by
  cases o with
  | none => exact Rejects.map h f
  | some a => exact Takes.map f h

theorem after {f : α → Reader β} (h : r.Takes bs a) (hf : (f a).Answers cs o') :
    (r >>= f).Answers (bs ++ cs) o' := by
  cases o' with
  | none => exact Rejects.after h hf
  | some b => exact Takes.bind h hf

theorem after_nil {f : α → Reader β} (h : r.Takes [] a) (hf : (f a).Answers cs o') :
    (r >>= f).Answers cs o' := by
  simpa using after h hf

theorem bind_pure (h : r.Answers bs o) (f : α → β) :
    (r >>= fun a => pure (f a)).Answers bs (o.map f) := by
  cases o with
  | none => exact Rejects.bind h _
  | some a => exact Takes.bind_nil h (Takes.pure _)

/-- What was taken may come to a value or to none. -/
theorem bind_ofOption {f : α → Option β} (h : r.Takes bs a) :
    (r >>= fun a => Reader.ofOption (f a)).Answers bs (f a) := by
  rw [← List.append_nil bs]
  refine after h ?_
  cases f a with
  | none => exact Rejects.ofOption rfl
  | some b => exact Takes.ofOption rfl

/-- Parts that are taken or rejected one by one are rejected together for one that is. -/
theorem times_of_mem {parts : List Bytes} {os : List (Option α)}
    (hparts : List.Forall₂ r.Answers parts os) (h : none ∈ os) :
    (Reader.times r parts.length).Rejects parts.flatten := by
  induction hparts with
  | nil => cases h
  | @cons p o parts os hp _ ih =>
    rw [List.length_cons, List.flatten_cons]
    cases o with
    | none => exact (Rejects.append hp _).bind _
    | some a =>
      have hrest : none ∈ os := by simpa using h
      exact Rejects.after hp ((ih hrest).bind _)

end Answers

end ObjectStore.Reader
