import ObjectStore.Proofs.Depot.Calls
import ObjectStore.Proofs.Depot.Refinement
import ObjectStore.Proofs.World.Answers
import ObjectStore.Proofs.World.Healthy

/-!
# What changes of one batch come to

A put, a delete and a clear ask the engine for one batch at most. Which status they are answered with is
said here for every depot in every world, whatever the switches of engine and codec, whatever the engine
holds and wherever the depot stands in its life; so is what they ask the engine for. One that is not
answered with `ok` has left every engine and the disk as they were.

Main statement: `outcome_of_single`.
-/

namespace ObjectStore.World

open Access

/-- What a depot answers to a change, and the world that is left. -/
def done (d : Depot) (edit : Edit) (w : World) : Except DepotError Unit × World :=
  (withObjects d fun kv codec => edit.act kv codec).exec w

/-- The status that a change is answered with. -/
def statusOf (d : Depot) (edit : Edit) (w : World) : Status :=
  Status.ofAnswer (done d edit w).1

/-- A change asks the engine for the given calls and for nothing else, and where calls are counted, these
are counted. -/
structure Asks (d : Depot) (edit : Edit) (w : World) (handle : Handle) (calls : List StoreCall) :
    Prop where
  noted : (edit.act (keyValue handle).noting d.codec).exec (w, []) =
    ((done d edit w).1, ((done d edit w).2, calls))
  counted : faults? handle (done d edit w).2 =
    (faults? handle w).map fun faults =>
      calls.foldl (fun faults call => faults.count call.engineCall) faults

/-- No engine has changed, and neither has the disk. -/
structure Untouched (w w' : World) : Prop where
  engines : w'.engines = w.engines
  disk : w'.disk = w.disk

theorem Untouched.refl (w : World) : Untouched w w := ⟨rfl, rfl⟩

theorem Untouched.trans {w w' w'' : World} (h : Untouched w w') (h' : Untouched w' w'') :
    Untouched w w'' :=
  ⟨h'.engines.trans h.engines, h'.disk.trans h.disk⟩

theorem untouched_counted (handle : Handle) (call : EngineCall) (w : World) :
    Untouched w (World.counted handle call w) :=
  ⟨engines_counted handle call w, disk_counted handle call w⟩

/-- A depot that is not ready refuses, and nothing happens. -/
theorem done_of_not_ready {d : Depot} (h : d.state ≠ .ready) (edit : Edit) (w : World) :
    done d edit w = (.error (.notReady d.state), w) := by
  unfold done withObjects
  cases hphase : d.phase with
  | ready handle => exact absurd (by simp [Depot.state, hphase]) h
  | uninitialized => rfl
  | closed => rfl

theorem state_of_phase {d : Depot} {handle : Handle} (h : d.phase = .ready handle) :
    d.state = .ready := by
  simp [Depot.state, h]

theorem exists_handle_of_state {d : Depot} (h : d.state = .ready) :
    ∃ handle, d.phase = .ready handle := by
  unfold Depot.state at h
  cases hphase : d.phase with
  | ready handle => exact ⟨handle, rfl⟩
  | uninitialized => simp [hphase] at h
  | closed => simp [hphase] at h

/-- What a change that is answered with `ok` leaves is what it ensures. -/
theorem holds_of_statusOf_ok {d : Depot} {handle : Handle} {edit : Edit} {w : World}
    (hphase : d.phase = .ready handle) {P : World → Prop} {failed : DepotError → World → Prop}
    (h : (edit.act (keyValue handle) d.codec).Ensures w (fun _ w' => P w') failed)
    (hok : statusOf d edit w = .ok) : P (done d edit w).2 := by
  have hdone : done d edit w = (edit.act (keyValue handle) d.codec).exec w := by
    unfold done
    rw [withObjects_of_phase hphase]
  unfold statusOf at hok
  rw [hdone] at hok ⊢
  rcases hexec : (edit.act (keyValue handle) d.codec).exec w with ⟨err | _, w'⟩
  · rw [hexec] at hok
    cases err <;> cases hok
  · exact (Action.ensures_iff.mp h).1 () w' hexec

/-! ## Puts -/

/-- What becomes of a put. The checks come in the order of the statuses: where several things are wrong,
the first of them is told. -/
structure PutOutcome (d : Depot) (o : DataObject) (w : World) : Prop where
  notReady : statusOf d (.put o) w = .notReady ↔ d.state ≠ .ready
  invalidParameters : statusOf d (.put o) w = .invalidParameters ↔
    d.state = .ready ∧ Unacceptable d.codec o
  unknown : statusOf d (.put o) w = .unknown ↔
    d.state = .ready ∧ ¬ Unacceptable d.codec o ∧ ¬ EncodesMetadata d.codec o
  database : statusOf d (.put o) w = .database ↔
    ∃ handle es, d.phase = .ready handle ∧ entriesOf d.codec o = .ok es ∧
      (refusal? handle .put (.put es) w).isSome
  ok : statusOf d (.put o) w = .ok ↔
    ∃ handle es, d.phase = .ready handle ∧ entriesOf d.codec o = .ok es ∧
      refusal? handle .put (.put es) w = none
  /-- There is a batch exactly if both checks pass. -/
  passes : (∃ es, entriesOf d.codec o = .ok es) ↔
    ¬ Unacceptable d.codec o ∧ EncodesMetadata d.codec o
  /-- The engine is asked for this one batch, or for nothing. -/
  asks : ∀ handle, d.phase = .ready handle →
    Asks d (.put o) w handle (callsOfPut d.codec o)
  stored : ∀ handle es, d.phase = .ready handle → entriesOf d.codec o = .ok es →
    statusOf d (.put o) w = .ok →
      content handle (done d (.put o) w).2 = (content handle w).applyPut es
  untouched : statusOf d (.put o) w ≠ .ok → Untouched w (done d (.put o) w).2

section Puts

variable {d : Depot} {handle : Handle} {o : DataObject}

theorem done_put (hphase : d.phase = .ready handle) (o : DataObject) (w : World) :
    done d (.put o) w =
      match entriesOf d.codec o with
      | .error err => (.error err, w)
      | .ok es =>
        match refusal? handle .put (.put es) w with
        | some err => (.error (.storage err), World.counted handle .put w)
        | none => (.ok (), applied handle (.put es) (World.counted handle .put w)) := by
  show (withObjects d fun kv codec => Access.put kv codec o).exec w = _
  rw [withObjects_of_phase hphase, exec_put]
  cases entriesOf d.codec o with
  | error err => rfl
  | ok es =>
      show (((put handle es).exec w).1.mapError _, ((put handle es).exec w).2) = _
      rw [exec_put_eq]
      cases hrefusal : refusal? handle .put (.put es) w with
      | some err =>
          simp only [hrefusal]
          rfl
      | none =>
          simp only [hrefusal]
          rfl

theorem asks_put (hphase : d.phase = .ready handle) (o : DataObject) (w : World) :
    Asks d (.put o) w handle (callsOfPut d.codec o) := by
  constructor
  · have hdone : done d (.put o) w = (Access.put (keyValue handle) d.codec o).exec w := by
      show (withObjects d fun kv codec => Access.put kv codec o).exec w = _
      rw [withObjects_of_phase hphase]
    rw [hdone]
    exact exec_noting_put (keyValue handle) d.codec o w
  · rw [done_put hphase, callsOfPut]
    cases hes : entriesOf d.codec o with
    | error err => simp [Except.toOption]
    | ok es =>
        cases hrefusal : refusal? handle .put (.put es) w with
        | some err => simp [hrefusal, Except.toOption, StoreCall.engineCall, faults?_counted]
        | none =>
            simp [hrefusal, Except.toOption, StoreCall.engineCall, faults?_applied, faults?_counted]

theorem outcome_of_put (d : Depot) (o : DataObject) (w : World) : PutOutcome d o w := by
  have hasks (handle : Handle) (hphase : d.phase = .ready handle) := asks_put hphase o w
  have hstored (handle : Handle) (es : List Entry) (hphase : d.phase = .ready handle)
      (hes : entriesOf d.codec o = .ok es) (hok : statusOf d (.put o) w = .ok) :
      content handle (done d (.put o) w).2 = (content handle w).applyPut es := by
    have hensures : (Edit.act (keyValue handle) d.codec (.put o)).Ensures w _ _ :=
      ensures_put (lawful_anywhere handle) (closedUnderAccess_true d.codec) (fun _ => trivial)
        trivial o
    obtain ⟨-, es', hes', hcontent⟩ := holds_of_statusOf_ok hphase hensures hok
    rw [hes, Except.ok.injEq] at hes'
    rw [hcontent, hes']
  by_cases hready : d.state = .ready
  · obtain ⟨handle, hphase⟩ := exists_handle_of_state hready
    have hdone := done_put hphase o w
    -- Only an object that passes both checks comes to the engine.
    obtain ⟨err, hes, hstatus, hbad⟩ | ⟨err, hes, hstatus, hgood, hnone⟩ | ⟨es, hes, hgood, hsome⟩ :=
      entriesOf_cases d.codec o
    · simp only [hes] at hdone
      constructor
      case asks => exact hasks
      all_goals simp [statusOf, hdone, Status.ofAnswer, hes, hstatus, hready, hbad, Untouched.refl]
    · simp only [hes] at hdone
      constructor
      case asks => exact hasks
      all_goals
        simp [statusOf, hdone, Status.ofAnswer, hes, hstatus, hready, hgood, hnone, Untouched.refl]
    · simp only [hes] at hdone
      cases hrefusal : refusal? handle .put (.put es) w with
      | some err =>
          simp only [hrefusal] at hdone
          constructor
          case asks => exact hasks
          all_goals
            simp [statusOf, hdone, Status.ofAnswer, DepotError.status, hphase, hes, hready, hgood,
              hsome, hrefusal, untouched_counted]
      | none =>
          simp only [hrefusal] at hdone
          constructor
          case asks => exact hasks
          case stored => exact hstored
          all_goals
            simp [statusOf, hdone, Status.ofAnswer, hphase, hes, hready, hgood, hsome, hrefusal]
  · have hdone := done_of_not_ready hready (.put o) w
    have hphase (handle : Handle) : d.phase ≠ .ready handle := fun h => hready (state_of_phase h)
    constructor
    case passes => exact exists_entriesOf_iff
    all_goals simp [statusOf, hdone, Status.ofAnswer, DepotError.status, hready, hphase, Untouched.refl]

end Puts

/-! ## Removals -/

/-- The keys that a removal finds: those that start with a text and pass a test. -/
def found (handle : Handle) (front : String) (p : Bytes → Bool) (w : World) : List Bytes :=
  (((content handle w).scan (Utf8.encode front)).map Entry.key).filter p

/-- What becomes of a change that removes what starts with a text and passes a test. -/
structure RemovalOutcome (d : Depot) (edit : Edit) (front : String) (p : Bytes → Bool) (w : World) :
    Prop where
  notReady : statusOf d edit w = .notReady ↔ d.state ≠ .ready
  database : statusOf d edit w = .database ↔
    ∃ handle, d.phase = .ready handle ∧
      ((scanRefusal? handle w).isSome ∨
        found handle front p w ≠ [] ∧
          (refusal? handle (.delete (found handle front p w)) (.delete (found handle front p w))
            w).isSome)
  ok : statusOf d edit w = .ok ↔ statusOf d edit w ≠ .notReady ∧ statusOf d edit w ≠ .database
  /-- The engine is asked for a scan, and for a delete only if the scan has found something. -/
  asks : ∀ handle, d.phase = .ready handle →
    Asks d edit w handle
      (.scan (Utf8.encode front) ::
        if scanRefusal? handle w = none ∧ found handle front p w ≠ [] then
          [.delete (found handle front p w)]
        else [])
  removed : ∀ handle, d.phase = .ready handle → statusOf d edit w = .ok →
    content handle (done d edit w).2 =
      (content handle w).filter fun k _ => !(k.startsWith (Utf8.encode front) && p k)
  untouched : statusOf d edit w ≠ .ok → Untouched w (done d edit w).2

section Removals

variable {d : Depot} {handle : Handle} {edit : Edit} {front : String} {p : Bytes → Bool}

/-- A change that removes what starts with a text and passes a test, over every store. -/
def Removes (edit : Edit) (front : String) (p : Bytes → Bool) : Prop :=
  ∀ {σ : Type} (kv : KeyValue σ) (codec : DataCodec), edit.act kv codec = removeUnder kv front p

theorem removes_delete (key : String) :
    Removes (.delete key) key fun k => Key.belongsTo k key := fun _ _ => rfl

theorem removes_clear : Removes .clear keyScheme fun _ => true := fun kv _ => clear_eq_removeUnder kv

theorem done_removal (hphase : d.phase = .ready handle) (hedit : Removes edit front p) (w : World) :
    done d edit w =
      let keys := found handle front p w
      let scanned := World.counted handle .scan w
      match scanRefusal? handle w with
      | some err => (.error (.storage err), scanned)
      | none =>
        if keys = [] then (.ok (), scanned)
        else
          match refusal? handle (.delete keys) (.delete keys) w with
          | some err => (.error (.storage err), World.counted handle (.delete keys) scanned)
          | none => (.ok (), applied handle (.delete keys) (World.counted handle (.delete keys) scanned))
    := by
  have hexec := exec_removeUnder (keyValue handle) front p w
  have hscan : (keyValue handle).scan (Utf8.encode front) = scan handle (Utf8.encode front) := rfl
  unfold done
  rw [withObjects_of_phase hphase, hedit, hexec, hscan, exec_scan_eq]
  cases scanRefusal? handle w with
  | some err => rfl
  | none =>
      show (if found handle front p w = [] then _ else
        (((delete handle (found handle front p w)).exec _).1.mapError _,
          ((delete handle (found handle front p w)).exec _).2)) = _
      rw [exec_delete_eq, refusal?_counted]
      simp only
      congr 1
      cases refusal? handle (.delete (found handle front p w)) (.delete (found handle front p w)) w <;>
        rfl

theorem asks_removal (hphase : d.phase = .ready handle) (hedit : Removes edit front p) (w : World) :
    Asks d edit w handle
      (.scan (Utf8.encode front) ::
        if scanRefusal? handle w = none ∧ found handle front p w ≠ [] then
          [.delete (found handle front p w)]
        else []) := by
  constructor
  · have hnoting := exec_noting_removeUnder (keyValue handle) front p w
    have hscan : ((keyValue handle).scan (Utf8.encode front)).exec w = _ :=
      exec_scan_eq handle (Utf8.encode front) w
    unfold done
    rw [withObjects_of_phase hphase, hedit, hedit, hnoting, callsOfRemoval, hscan]
    cases scanRefusal? handle w with
    | some err => rfl
    | none =>
        show (_, (_, _ :: if found handle front p w = [] then []
          else [StoreCall.delete (found handle front p w)])) = _
        by_cases hnil : found handle front p w = []
        · simp [hnil]
        · simp [hnil]
  · rw [done_removal hphase hedit]
    cases hscan : scanRefusal? handle w with
    | some err => simp [StoreCall.engineCall, faults?_counted]
    | none =>
        by_cases hnil : found handle front p w = []
        · simp [hnil, StoreCall.engineCall, faults?_counted]
        · cases hrefusal : refusal? handle (.delete (found handle front p w))
            (.delete (found handle front p w)) w with
          | some err =>
              simp [hnil, hrefusal, StoreCall.engineCall, faults?_counted, Function.comp_def]
          | none =>
              simp [hnil, hrefusal, StoreCall.engineCall, faults?_applied, faults?_counted,
                Function.comp_def]

theorem outcome_of_removal (hedit : Removes edit front p) (d : Depot) (w : World) :
    RemovalOutcome d edit front p w := by
  have hasks (handle : Handle) (hphase : d.phase = .ready handle) := asks_removal hphase hedit w
  have hremoved (handle : Handle) (hphase : d.phase = .ready handle)
      (hok : statusOf d edit w = .ok) : content handle (done d edit w).2 =
        (content handle w).filter fun k _ => !(k.startsWith (Utf8.encode front) && p k) := by
    have hensures : (removeUnder (keyValue handle) front p).Ensures w _ _ :=
      ensures_removeUnder (lawful_anywhere handle) trivial rfl trivial
    rw [← hedit (keyValue handle) d.codec] at hensures
    exact (holds_of_statusOf_ok hphase hensures hok).2
  by_cases hready : d.state = .ready
  · obtain ⟨handle, hphase⟩ := exists_handle_of_state hready
    have hdone := done_removal hphase hedit w
    cases hscan : scanRefusal? handle w with
    | some err =>
        simp only [hscan] at hdone
        constructor
        case asks => exact hasks
        all_goals
          simp [statusOf, hdone, Status.ofAnswer, DepotError.status, hready, hphase, hscan,
            untouched_counted]
    | none =>
        simp only [hscan] at hdone
        by_cases hnil : found handle front p w = []
        · simp only [hnil, if_true] at hdone
          constructor
          case asks => exact hasks
          case removed => exact hremoved
          all_goals simp [statusOf, hdone, Status.ofAnswer, hready, hphase, hscan, hnil]
        · simp only [if_neg hnil] at hdone
          cases hrefusal : refusal? handle (.delete (found handle front p w))
            (.delete (found handle front p w)) w with
          | some err =>
              simp only [hrefusal] at hdone
              constructor
              case asks => exact hasks
              case untouched =>
                intro _
                rw [hdone]
                exact (untouched_counted handle _ w).trans (untouched_counted handle _ _)
              all_goals
                simp [statusOf, hdone, Status.ofAnswer, DepotError.status, hready, hphase, hscan,
                  hnil, hrefusal]
          | none =>
              simp only [hrefusal] at hdone
              constructor
              case asks => exact hasks
              case removed => exact hremoved
              all_goals
                simp [statusOf, hdone, Status.ofAnswer, hready, hphase, hscan, hnil, hrefusal]
  · have hdone := done_of_not_ready hready edit w
    have hphase (handle : Handle) : d.phase ≠ .ready handle := fun h => hready (state_of_phase h)
    constructor
    all_goals simp [statusOf, hdone, Status.ofAnswer, DepotError.status, hready, hphase, Untouched.refl]

end Removals

/-- A put, a delete and a clear are answered with the status that says what was wrong first, ask the
engine for one batch at most, and leave everything as it was unless they are answered with `ok`. -/
theorem outcome_of_single (d : Depot) (w : World) :
    (∀ o, PutOutcome d o w) ∧
      (∀ key, RemovalOutcome d (.delete key) key (fun k => Key.belongsTo k key) w) ∧
      RemovalOutcome d .clear keyScheme (fun _ => true) w :=
  ⟨fun o => outcome_of_put d o w, fun key => outcome_of_removal (removes_delete key) d w,
    outcome_of_removal removes_clear d w⟩

end ObjectStore.World
