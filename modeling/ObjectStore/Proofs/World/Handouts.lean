import ObjectStore.Proofs.World.Parting

/-!
# What a log tells of wrappers

A log of what a guarded manager was asked for, with the answers, says which wrappers it has out: those that
were out before and those that it has handed out since, without those that it has taken back. Wrappers are
numbered, so that none is handed out twice, and none can be taken back twice.

Main statements: `Accords.trans`, `dealt_lend` and `dealt_reclaim`.
-/

namespace ObjectStore

/-- The number of a wrapper. -/
def Handle.serial : Handle → Nat
  | .direct _ => 0
  | .wrapped serial _ _ => serial

namespace World

open ObjectStore.Action

/-! ## Logs -/

namespace Deal

/-- The handles that were handed out. -/
def handedOut (log : List Deal) : List Handle :=
  log.filterMap fun
    | .lend _ _ (.ok handle) => some handle
    | _ => none

/-- The handles that were taken back. -/
def takenBack (log : List Deal) : List Handle :=
  log.filterMap fun
    | .reclaim _ handle (.ok ()) => some handle
    | _ => none

theorem handedOut_append (log log' : List Deal) :
    handedOut (log ++ log') = handedOut log ++ handedOut log' := List.filterMap_append

theorem takenBack_append (log log' : List Deal) :
    takenBack (log ++ log') = takenBack log ++ takenBack log' := List.filterMap_append

theorem mem_handedOut_of_mem {log : List Deal} {id : String} {options : Options} {handle : Handle}
    (h : .lend id options (.ok handle) ∈ log) : handle ∈ handedOut log :=
  List.mem_filterMap.mpr ⟨_, h, rfl⟩

end Deal

/-- The log tells what has become of the wrappers of a manager between two worlds. -/
structure Tells (ref : ManagerRef) (w : World) (log : List Deal) (w' : World) : Prop where
  listed : ∀ handle, handle ∈ w'.handedOut ref ↔
    (handle ∈ w.handedOut ref ∨ handle ∈ Deal.handedOut log) ∧ handle ∉ Deal.takenBack log
  fresh : ∀ handle ∈ Deal.handedOut log, w.next ≤ handle.serial ∧ handle.serial < w'.next
  distinct : (Deal.handedOut log).Nodup
  once : (Deal.takenBack log).Nodup
  known : ∀ handle ∈ Deal.takenBack log, handle ∈ w.handedOut ref ∨ handle ∈ Deal.handedOut log

/-- The log tells of the wrappers, unless the manager has no guard. -/
structure Accords (ref : ManagerRef) (w : World) (log : List Deal) (w' : World) : Prop where
  next : w.next ≤ w'.next
  /-- No manager gets a guard later on, or loses it. -/
  guarded : (w.guarded? ref).isSome → w'.guarded? ref = w.guarded? ref
  /-- Every engine is still of the store that it was of. -/
  engines : ∀ {r e}, w.engines.get? r = some e → ∃ e', w'.engines.get? r = some e' ∧ e'.id = e.id
  /-- A handle is of a store of the id that it was handed out under. -/
  named : ∀ {id options handle}, .lend id options (.ok handle) ∈ log →
    ∃ e, w'.engines.get? handle.engine = some e ∧ e.id = id
  tells : w'.guarded? ref ≠ some false → Tells ref w log w'

/-- Moreover, nobody has closed past the manager what it has on loan. -/
structure Dealt (ref : ManagerRef) (w : World) (log : List Deal) (w' : World) : Prop
    extends Accords ref w log w' where
  alive : Alive w ref → Alive w' ref

section Accords

variable {ref : ManagerRef} {w w₁ w' : World} {log log' : List Deal} {handle : Handle}

theorem Matched.serial_lt (h : Matched w) (hmem : handle ∈ w.handedOut ref) : handle.serial < w.next := by
  obtain ⟨wrapper, rfl, hwrapper⟩ := exists_wrapper_of_mem hmem
  exact h.older hwrapper

/-- What was out or has been handed out has a number that was given already. -/
theorem Tells.serial_lt (h : Tells ref w log w₁) (hmatched : Matched w) (hnext : w.next ≤ w₁.next)
    (hmem : handle ∈ w.handedOut ref ∨ handle ∈ Deal.handedOut log) : handle.serial < w₁.next := by
  rcases hmem with hmem | hmem
  · exact Nat.lt_of_lt_of_le (hmatched.serial_lt hmem) hnext
  · exact (h.fresh handle hmem).2

/-- What is taken back was out before or was handed out in one of the two logs. -/
theorem Tells.known_append (h : Tells ref w log w₁) (h' : Tells ref w₁ log' w')
    (htaken : handle ∈ Deal.takenBack (log ++ log')) :
    handle ∈ w.handedOut ref ∨ handle ∈ Deal.handedOut (log ++ log') := by
  rw [Deal.takenBack_append] at htaken
  rw [Deal.handedOut_append, List.mem_append]
  rcases List.mem_append.mp htaken with htaken | htaken
  · exact (h.known handle htaken).imp_right .inl
  · rcases h'.known handle htaken with hlisted | hmem
    · exact ((h.listed handle).mp hlisted).1.imp_right .inl
    · exact .inr (.inr hmem)

theorem Tells.trans (h : Tells ref w log w₁) (h' : Tells ref w₁ log' w') (hmatched : Matched w)
    (hnext : w.next ≤ w₁.next) (hnext' : w₁.next ≤ w'.next) : Tells ref w (log ++ log') w' := by
  -- What is handed out later has numbers that nothing had before, and so it was not taken back before.
  have hnew {handle : Handle} (hmem : handle ∈ Deal.handedOut log') :
      ¬ (handle ∈ w.handedOut ref ∨ handle ∈ Deal.handedOut log) := fun hmem' =>
    Nat.lt_irrefl _ (Nat.lt_of_lt_of_le (h.serial_lt hmatched hnext hmem') (h'.fresh handle hmem).1)
  have hback {handle : Handle} (hmem : handle ∈ Deal.handedOut log') : handle ∉ Deal.takenBack log :=
    fun htaken => hnew hmem (h.known handle htaken)
  constructor
  case listed =>
    intro handle
    rw [h'.listed, h.listed, Deal.handedOut_append, Deal.takenBack_append, List.mem_append,
      List.mem_append, not_or]
    have himp : handle ∈ Deal.handedOut log' → handle ∉ Deal.takenBack log := hback
    tauto
  case fresh =>
    intro handle hmem
    rw [Deal.handedOut_append] at hmem
    rcases List.mem_append.mp hmem with hmem | hmem
    · obtain ⟨hlow, hhigh⟩ := h.fresh handle hmem
      exact ⟨hlow, Nat.lt_of_lt_of_le hhigh hnext'⟩
    · obtain ⟨hlow, hhigh⟩ := h'.fresh handle hmem
      exact ⟨Nat.le_trans hnext hlow, hhigh⟩
  case distinct =>
    rw [Deal.handedOut_append]
    exact h.distinct.append h'.distinct fun handle hmem hmem' => hnew hmem' (.inr hmem)
  case once =>
    rw [Deal.takenBack_append]
    refine h.once.append h'.once fun handle htaken htaken' => ?_
    rcases h'.known handle htaken' with hlisted | hmem
    · exact ((h.listed handle).mp hlisted).2 htaken
    · exact hback hmem htaken
  case known => exact fun handle htaken => h.known_append h' htaken

theorem Accords.trans (h : Accords ref w log w₁) (h' : Accords ref w₁ log' w') (hmatched : Matched w) :
    Accords ref w (log ++ log') w' where
  next := Nat.le_trans h.next h'.next
  guarded hsome := by
    rw [h'.guarded (by rwa [h.guarded hsome]), h.guarded hsome]
  engines he := by
    obtain ⟨e₁, he₁, hid⟩ := h.engines he
    obtain ⟨e', he', hid'⟩ := h'.engines he₁
    exact ⟨e', he', hid'.trans hid⟩
  named hlent := by
    rcases List.mem_append.mp hlent with hlent | hlent
    · obtain ⟨e₁, he₁, rfl⟩ := h.named hlent
      exact h'.engines he₁
    · exact h'.named hlent
  tells hguard := by
    have hguard₁ : w₁.guarded? ref ≠ some false := fun hfalse =>
      hguard ((h'.guarded (Option.isSome_of_eq_some hfalse)).trans hfalse)
    exact (h.tells hguard₁).trans (h'.tells hguard) hmatched h.next h'.next

/-- Where the wrappers stay, nothing was handed out or taken back. -/
theorem Accords.of_same (hnext : w.next ≤ w'.next)
    (hguarded : (w.guarded? ref).isSome → w'.guarded? ref = w.guarded? ref)
    (hengines : ∀ {r e}, w.engines.get? r = some e → ∃ e', w'.engines.get? r = some e' ∧ e'.id = e.id)
    (hlisted : ∀ handle, handle ∈ w'.handedOut ref ↔ handle ∈ w.handedOut ref)
    (hout : Deal.handedOut log = []) (hback : Deal.takenBack log = []) : Accords ref w log w' := by
  refine ⟨hnext, hguarded, hengines, fun hlent => ?_, fun _ => ⟨?_, ?_, ?_, ?_, ?_⟩⟩
  · have hmem := Deal.mem_handedOut_of_mem hlent
    rw [hout] at hmem
    cases hmem
  · simp [hlisted, hout, hback]
  · simp [hout]
  · simp [hout]
  · simp [hback]
  · simp [hback]

theorem Dealt.trans (h : Dealt ref w log w₁) (h' : Dealt ref w₁ log' w') (hmatched : Matched w) :
    Dealt ref w (log ++ log') w' :=
  ⟨h.toAccords.trans h'.toAccords hmatched, fun halive => h'.alive (h.alive halive)⟩

/-- What leaves the loans of the manager alone, whatever was refused. -/
theorem Aside.dealt (h : Aside ref w w') (hout : Deal.handedOut log = [])
    (hback : Deal.takenBack log = []) : Dealt ref w log w' := by
  refine ⟨.of_same h.next (fun _ => h.guarded) (fun he => ?_) (fun _ => h.mem_handedOut) hout hback,
    fun halive => halive.aside h⟩
  obtain ⟨e', he', hid, -⟩ := h.engines he
  exact ⟨e', he', hid⟩

theorem Aside.dealt_nil (h : Aside ref w w') : Dealt ref w [] w' := h.dealt rfl rfl

/-- Before a deal and after it the loans of the manager may be left alone. -/
theorem Dealt.after (h : Dealt ref w₁ log w') (haside : Aside ref w w₁) (hmatched : Matched w) :
    Dealt ref w log w' := haside.dealt_nil.trans h hmatched

theorem Dealt.before (h : Dealt ref w log w₁) (haside : Aside ref w₁ w') (hmatched : Matched w) :
    Dealt ref w log w' := by
  have hboth := h.trans haside.dealt_nil hmatched
  rwa [List.append_nil] at hboth

end Accords

/-! ## Single deals -/

section Deals

variable {ref ref' : ManagerRef} {w w' : World} {id : String} {options : Options} {handle : Handle}

theorem guarded?_of_ne (hsome : (w.guarded? ref).isSome) (hne : w.guarded? ref ≠ some false) :
    w.guarded? ref = some true := by
  obtain ⟨guarded, hguard⟩ := Option.isSome_iff_exists.mp hsome
  cases guarded with
  | true => exact hguard
  | false => exact absurd hguard hne

theorem isSome_guarded?_of_accepts (h : Accepts w ref handle) : (w.guarded? ref).isSome := by
  obtain ⟨m, hm, -⟩ := h
  simp [guarded?, hm]

/-- A loan hands one wrapper out. -/
theorem LendsHandle.tells (h : LendsHandle w ref id options handle w')
    (hguard : w.guarded? ref = some true) : Tells ref w [.lend id options (.ok handle)] w' := by
  obtain ⟨serial, hwrapped⟩ := h.wrapped_of_guarded hguard
  have hwrapper : handle.wrapper? = some (serial, handle.engine) := by
    rw [hwrapped]
    rfl
  have hserial : handle.serial = serial := by
    rw [hwrapped]
    rfl
  have hlisted : w'.handedOut ref = w.handedOut ref ++ [handle] := by
    unfold World.handedOut
    rw [h.guards.2, if_pos rfl, hwrapper, Option.toList_some, List.map_append, List.map_singleton,
      ← hwrapped]
  refine ⟨fun handle' => ?_, fun handle' hmem => ?_, ?_, ?_, ?_⟩
  · rw [hlisted, List.mem_append]
    simp [Deal.handedOut, Deal.takenBack]
  · have heq : handle' = handle := by simpa [Deal.handedOut] using hmem
    rw [heq, hserial]
    exact h.wrapper_fresh hwrapper
  · simp [Deal.handedOut]
  · simp [Deal.takenBack]
  · simp [Deal.takenBack]

/-- A return takes one of the wrappers that are out. -/
theorem ReturnsEngine.tells {e : Engine}
    (h : ReturnsEngine (unwrapped ref handle w) ref e.id handle.engine w') (hmatched : Matched w)
    (hguard : w.guarded? ref = some true) (haccepts : Accepts w ref handle) :
    Tells ref w [.reclaim e.id handle (.ok ())] w' := by
  have hmem := (accepts_iff_mem_handedOut hguard).mp haccepts
  obtain ⟨wrapper, rfl, hwrapper⟩ := exists_wrapper_of_mem hmem
  have hwrappers : w'.wrappers ref = (w.wrappers ref).erase wrapper := by
    rw [h.sameGuards.wrappers, (guards_unwrapped ref _ w).2, if_pos rfl]
    rfl
  have hlisted (handle : Handle) : handle ∈ w'.handedOut ref ↔
      handle ∈ w.handedOut ref ∧ handle ≠ .wrapped wrapper.1 ref wrapper.2 := by
    unfold World.handedOut
    rw [hwrappers, List.mem_map, List.mem_map]
    constructor
    · rintro ⟨other, hother, rfl⟩
      obtain ⟨hne, hother⟩ := (hmatched.distinct ref).mem_erase_iff.mp hother
      refine ⟨⟨other, hother, rfl⟩, fun heq => hne ?_⟩
      injection heq with hserial _ hengine
      exact Prod.ext hserial hengine
    · rintro ⟨⟨other, hother, rfl⟩, hne⟩
      refine ⟨other, (hmatched.distinct ref).mem_erase_iff.mpr ⟨fun heq => hne ?_, hother⟩, rfl⟩
      rw [heq]
  refine ⟨fun handle => ?_, ?_, ?_, ?_, ?_⟩
  · rw [hlisted]
    simp [Deal.handedOut, Deal.takenBack]
  · simp [Deal.handedOut]
  · simp [Deal.handedOut]
  · simp [Deal.takenBack]
  · intro handle htaken
    have heq : handle = .wrapped wrapper.1 ref wrapper.2 := by simpa [Deal.takenBack] using htaken
    rw [heq]
    exact .inl hmem

theorem dealt_lend (hbooked : Booked w) (id : String) (options : Options) :
    Dealt ref w [.lend id options ((lend ref id options).exec w).1] ((lend ref id options).exec w).2 := by
  have hlend := ensures_lend_or_denies ref id options w
  unfold Ensures at hlend
  rcases hexec : (lend ref id options).exec w with ⟨err | handle, w'⟩
  · rw [hexec] at hlend
    exact (hlend.refused.aside ref).dealt rfl rfl
  · rw [hexec] at hlend
    obtain ⟨hlends, hpermits⟩ := hlend
    have hguarded := hlends.guarded?_eq ref
    have hbooks := hlends.lends
    refine ⟨⟨hlends.next_le, fun _ => hguarded, fun he => ?_, fun hlent => ?_, fun hne => ?_⟩,
      fun halive => halive.lends hbooked.fresh hlends hpermits⟩
    · exact ⟨_, hbooks.get?_engines hbooked.fresh he, rfl⟩
    · cases List.mem_singleton.mp hlent
      obtain ⟨e, he, hid, -⟩ := hbooked.engine_of_lends hbooks
      exact ⟨e, he, hid⟩
    · have hguard := guarded?_of_ne (isSome_guarded?_of_accepts hlends.accepts) hne
      exact hlends.tells (hguarded.symm.trans hguard)

/-- Without an engine there is nothing that could be given back. -/
theorem exec_reclaim_of_no_engine (ref : ManagerRef) (he : w.engines.get? handle.engine = none) :
    ((reclaim ref handle).exec w).2 = w := by
  unfold reclaim managerOf engineOf
  simp only [exec_bind, exec_get]
  cases w.managers.get? ref with
  | none => rfl
  | some m => simp only [exec_pure, he, exec_throw]

theorem dealt_reclaim {e : Engine} (hmatched : Matched w) (hbooked : Booked w)
    (he : w.engines.get? handle.engine = some e) :
    Dealt ref w [.reclaim e.id handle ((reclaim ref handle).exec w).1] ((reclaim ref handle).exec w).2 := by
  have hreclaim := hmatched.ensures_reclaim hbooked ref handle
  unfold Ensures at hreclaim
  rcases hexec : (reclaim ref handle).exec w with ⟨err | _, w'⟩
  · rw [hexec] at hreclaim
    cases hreclaim
    exact (Aside.refl ref w).dealt rfl rfl
  · rw [hexec] at hreclaim
    obtain ⟨e', he', haccepts, hreturns⟩ := hreclaim
    rw [he] at he'
    cases he'
    have hguarded := hreturns.guarded?_eq ref
    have hbooks := (sameBooks_unwrapped ref handle w).returns hreturns.returns
    refine ⟨⟨?_, fun _ => hguarded, fun he => ?_, fun hlent => ?_, fun hne => ?_⟩,
      fun halive => halive.returns hbooked hbooks⟩
    · exact Nat.le_of_eq (hreturns.next_eq.trans (next_unwrapped ref handle w)).symm
    · rcases hbooks.engines he with hsame | ⟨-, -, hclosed⟩
      · exact ⟨_, hsame, rfl⟩
      · exact ⟨_, hclosed, rfl⟩
    · cases List.mem_singleton.mp hlent
    · rw [hguarded] at hne
      exact hreturns.tells hmatched (guarded?_of_ne (isSome_guarded?_of_accepts haccepts) hne) haccepts

end Deals

end World

end ObjectStore
