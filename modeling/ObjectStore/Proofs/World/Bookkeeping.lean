import ObjectStore.Proofs.World.Dealings

/-!
# The books of a guarded manager

A guarded manager keeps two tables: the wrappers that it has handed out, and under each id the number of
loans. Whatever has happened, both can be read off the log of what it was asked for. The wrappers are those
that were handed out and not taken back, and under each id there are as many loans as there are such
wrappers of that id. A push gets a wrapper and gives it back within one event, so that the log has both.

The same goes for what the manager will answer: it takes back each wrapper that is out, and refuses
everything else. As long as no engine is closed past it, every wrapper that is out has an open engine.

Main statement: `bookkept_future`.
-/

namespace ObjectStore.World

open ObjectStore.Action

/-! ## What is outstanding -/

namespace Deal

/-- The handles that were handed out and not taken back. -/
def outstanding (log : List Deal) : List Handle :=
  (handedOut log).filter (· ∉ takenBack log)

theorem mem_outstanding_iff {log : List Deal} {handle : Handle} :
    handle ∈ outstanding log ↔ handle ∈ handedOut log ∧ handle ∉ takenBack log := by
  simp [outstanding]

/-- A loan under the id whose handle has not been taken back. -/
def isOutstanding (log : List Deal) (id : String) : Deal → Bool
  | .lend id' _ (.ok handle) => id' == id && decide (handle ∉ takenBack log)
  | _ => false

/-- The outstanding handles with some property are counted in the log. -/
theorem countP_outstanding (log : List Deal) (p : Handle → Bool) :
    (outstanding log).countP p = log.countP fun
      | .lend _ _ (.ok handle) => p handle && decide (handle ∉ takenBack log)
      | _ => false := by
  unfold outstanding handedOut
  rw [List.countP_filter, List.countP_filterMap]
  refine List.countP_congr fun deal _ => ?_
  rcases deal with ⟨id, options, err | handle⟩ | ⟨id, handle, answer⟩
  · simp
  · simp
  · simp

end Deal

/-- What can be said of a guarded manager and the log of all that it was asked for. -/
structure Bookkept (ref : ManagerRef) (log : List Deal) (w : World) : Prop where
  /-- The wrappers on the list are those that were handed out and not taken back. -/
  listed : (w.handedOut ref).Perm (Deal.outstanding log)
  /-- No wrapper is handed out twice. -/
  distinct : (Deal.handedOut log).Nodup
  /-- A wrapper is taken back at most once. -/
  once : (Deal.takenBack log).Nodup
  /-- Nothing else is taken back. -/
  known : Deal.takenBack log ⊆ Deal.handedOut log
  /-- Under each id there are as many loans as there are outstanding handles. -/
  counted : ∀ id, w.handles ref id = log.countP (Deal.isOutstanding log id)
  /-- Each wrapper on the list is taken back, and nobody who has another one can tell. -/
  closes : ∀ handle ∈ w.handedOut ref,
    ∃ w', (reclaim ref handle).exec w = (.ok (), w') ∧ Parts ref handle w w'
  refuses : ∀ handle e, w.engines.get? handle.engine = some e → handle ∉ w.handedOut ref →
    (reclaim ref handle).exec w = (.error (.storeNotFound e.id), w)

section Books

variable {ref : ManagerRef} {w : World}

theorem nodup_handedOut (h : Matched w) (ref : ManagerRef) : (w.handedOut ref).Nodup := by
  refine (h.distinct ref).map fun wrapper other heq => ?_
  injection heq with hserial _ hengine
  exact Prod.ext hserial hengine

/-- Under each id there are as many loans as there are wrappers of its store. -/
theorem Orderly.handles_eq (h : Orderly w) (hguard : w.guarded? ref = some true) (id : String) :
    w.handles ref id = (w.handedOut ref).countP fun handle =>
      (w.engines.get? handle.engine).any fun e => e.id == id := by
  -- The engine of a wrapper has the id of its loan.
  have hlent {wrapper : Nat × EngineRef} (hmem : wrapper ∈ w.wrappers ref) :
      ∃ e loan, w.engines.get? wrapper.2 = some e ∧ w.loan? ref e.id = some loan ∧
        loan.engine = wrapper.2 := by
    obtain ⟨id', loan, hloan, hengine⟩ := h.matched.lent hmem
    obtain ⟨-, e, he, rfl⟩ := h.accounted.booked.lent hloan
    rw [hengine] at he
    exact ⟨e, loan, he, hloan, hengine⟩
  unfold handedOut
  rw [List.countP_map]
  cases hloan : w.loan? ref id with
  | none =>
      rw [handles, hloan, Option.elim_none, eq_comm, List.countP_eq_zero]
      intro wrapper hmem
      obtain ⟨e, loan, he, hloan', -⟩ := hlent hmem
      simp only [Function.comp_apply, Handle.engine, he, Option.any_some, beq_iff_eq]
      rintro rfl
      rw [hloan] at hloan'
      cases hloan'
  | some loan =>
      -- Both sides count the wrappers of the one engine that is on loan under the id.
      rw [handles_of_loan hloan, h.matched.counted hguard hloan, wraps]
      refine List.countP_congr fun wrapper hmem => ?_
      obtain ⟨e, loan', he, hloan', hengine⟩ := hlent hmem
      simp only [Function.comp_apply, Handle.engine, he, Option.any_some, beq_iff_eq]
      constructor
      · rintro hsame
        obtain ⟨-, e', he', hid⟩ := h.accounted.booked.lent hloan
        rw [← hsame, he] at he'
        cases he'
        exact hid
      · rintro rfl
        rw [hloan] at hloan'
        cases hloan'
        exact hengine.symm

/-- No call through a wrapper is answered with `closed` while what is on loan is open. -/
theorem Alive.neverClosed {handle : Handle} (h : Alive w ref) (hmatched : Matched w)
    (hmem : handle ∈ w.handedOut ref) : NeverClosed handle w := by
  obtain ⟨wrapper, rfl, hwrapper⟩ := exists_wrapper_of_mem hmem
  obtain ⟨id, loan, hloan, hengine⟩ := hmatched.lent hwrapper
  obtain ⟨-, e, he, hopen⟩ := h id loan hloan
  rw [hengine] at he
  exact neverClosed_of_open he hopen

/-- A manager that had handed out nothing has on its list what the log has outstanding. -/
theorem Tells.perm {w₀ : World} {log : List Deal} (h : Tells ref w₀ log w) (hmatched : Matched w)
    (hnone : w₀.handedOut ref = []) : (w.handedOut ref).Perm (Deal.outstanding log) := by
  have hnodup : (Deal.outstanding log).Nodup := h.distinct.filter _
  refine (List.perm_ext_iff_of_nodup (nodup_handedOut hmatched ref) hnodup).mpr fun handle => ?_
  rw [h.listed, hnone, Deal.mem_outstanding_iff]
  simp

/-- Whatever has happened on whatever disk, the log of a guarded manager tells what it has handed out and
what it will answer. Nothing that is out is closed, unless it was closed past the manager. -/
theorem bookkept_future (disk : Disk) (events : List Event)
    (hguard : (future { disk } events).guarded? ref = some true) :
    Bookkept ref (dealsOver ref { disk } events) (future { disk } events) ∧
      (Unshut ref { disk } events →
        ∀ handle ∈ (future { disk } events).handedOut ref, NeverClosed handle (future { disk } events)) := by
  have horderly := orderly_future disk events
  have haccords := accords_future ref (orderly_of_disk disk) events
  have htells := haccords.tells (by rw [hguard]; decide)
  have hlisted := htells.perm horderly.matched rfl
  constructor
  case left =>
    constructor
    case listed => exact hlisted
    case distinct => exact htells.distinct
    case once => exact htells.once
    case known => exact fun handle htaken => (htells.known handle htaken).resolve_left List.not_mem_nil
    case counted =>
      intro id
      rw [horderly.handles_eq hguard, hlisted.countP_eq, Deal.countP_outstanding]
      refine List.countP_congr fun deal hmem => ?_
      rcases deal with ⟨id', options, err | handle⟩ | ⟨id', handle, answer⟩
      · rfl
      · obtain ⟨e, he, rfl⟩ := haccords.named hmem
        simp [Deal.isOutstanding, he]
      · rfl
    case closes => exact fun handle hmem => parts_of_mem horderly hmem
    case refuses =>
      intro handle e he hnot
      refine reclaim_of_not_accepts (Option.isSome_of_eq_some hguard) (fun haccepts => hnot ?_) he
      exact (accepts_iff_mem_handedOut hguard).mp haccepts
  case right =>
    intro hunshut handle hmem
    -- Before anything has happened nothing is on loan.
    have halive : Alive ({ disk } : World) ref := fun id loan hloan => by cases hloan
    exact (halive.future (orderly_of_disk disk) events hunshut).neverClosed horderly.matched hmem

/-- A store is lent twice and pushed to the device of its own manager. Then one of the handles is given
back, and after that once more. -/
def pushedAndReturned : List Event :=
  [.call (.addManager "m" "app" "user" none true true), .call (.register "device" "m"),
    .lend "a" "m" "s" { memoryOnly := true }, .lend "b" "m" "s" { memoryOnly := true },
    .sync "a" ["device"] .pushOnly, .reclaim "m" "a", .reclaim "m" "a"]

/-- The log has the wrapper of the push too, and what is out in the end is the other handle. -/
theorem bookkept_pushedAndReturned :
    (future {} pushedAndReturned).guarded? 0 = some true ∧
      (dealsOver 0 {} pushedAndReturned).length = 6 ∧
      Deal.outstanding (dealsOver 0 {} pushedAndReturned) = [.wrapped 3 0 1] ∧
      Bookkept 0 (dealsOver 0 {} pushedAndReturned) (future {} pushedAndReturned) ∧
      ∀ handle ∈ (future {} pushedAndReturned).handedOut 0,
        NeverClosed handle (future {} pushedAndReturned) := by
  have hguard : (future {} pushedAndReturned).guarded? 0 = some true := by decide +kernel
  have hunshut : Unshut 0 {} pushedAndReturned := by simp [Unshut, Shuts, pushedAndReturned]
  obtain ⟨hbookkept, hopen⟩ := bookkept_future {} pushedAndReturned hguard
  exact ⟨hguard, by decide +kernel, by decide +kernel, hbookkept, hopen hunshut⟩

end Books

end ObjectStore.World
