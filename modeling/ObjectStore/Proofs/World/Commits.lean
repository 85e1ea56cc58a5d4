import Mathlib.Data.List.Induction
import ObjectStore.Proofs.World.Runs

/-!
# Commits

A batch is committed at a place when an engine that has the directory there open accepts it, unless it
is empty. Over every run the log at the place holds the records of exactly the batches that were
committed there, and the table of an engine that has the directory open is the one that the last of them
made. A put, a delete and a clear commit one batch at most.

Main statements: `commits_step` and `exists_traces`.
-/

namespace ObjectStore.World

open ObjectStore.Action Engine

/-- A batch that was committed, and the table that it made. -/
structure Commit where
  batch : Batch
  table : Table
  deriving DecidableEq, Repr

/-- The table after some commits, the first of which found nothing. -/
def tableAfter (commits : List Commit) : Table :=
  (commits.getLast?.map Commit.table).getD ∅

/-- The file at a place stays as it is, or an empty one comes to be there. -/
def Quiet (d d' : Disk) (place : List String) : Prop :=
  d'.content? place = d.content? place ∨ d.content? place = none ∧ d'.content? place = some []

/-- What is committed at a place between two worlds, in order. Batches are accepted by engines that are
held and have the directory there open, and no other move touches the log. -/
inductive Commits (place : List String) (w : World) : List Commit → World → Prop where
  | refl : Commits place w [] w
  | quiet {commits : List Commit} {w₁ w₂ : World} :
      Commits place w commits w₁ → Move w₁ w₂ → Quiet w₁.disk w₂.disk (logPlace place) →
      Commits place w commits w₂
  | commit {commits : List Commit} {w₁ : World} {r : EngineRef} {batch : Batch} {e e' : Engine}
      {disk : Disk} :
      Commits place w commits w₁ → Move w₁ { w₁ with engines := w₁.engines.insert r e', disk } →
      w₁.engines.get? r = some e → w₁.isEngineHeld r = true → e.directory? = some place →
      batch.isEmpty = false → e.write batch w₁.disk = .ok (e', disk) →
      Commits place w (commits ++ [{ batch, table := e'.table }])
        { w₁ with engines := w₁.engines.insert r e', disk }

/-! ## Every move commits one batch at most -/

theorem quiet_of_extends {d d' : Disk} (h : Disk.Extends d d') (place : List String) :
    Quiet d d' place := by
  unfold Quiet
  cases hnew : d'.content? place with
  | some bs =>
      rcases h.of_content?_eq_some hnew with hold | ⟨hnone, rfl⟩
      · exact .inl hold.symm
      · exact .inr ⟨hnone, rfl⟩
  | none =>
      cases hold : d.content? place with
      | some bs =>
          rw [h.content?_of_some hold] at hnew
          cases hnew
      | none => exact .inl rfl

namespace Commits

variable {place : List String} {w w' w'' : World} {commits commits' : List Commit}

theorem trans (h : Commits place w commits w') (h' : Commits place w' commits' w'') :
    Commits place w (commits ++ commits') w'' := by
  induction h' with
  | refl =>
      rw [List.append_nil]
      exact h
  | quiet _ hmove hquiet ih => exact .quiet ih hmove hquiet
  | commit _ hmove hr hheld hplace hbatch hwrite ih =>
      rw [← List.append_assoc]
      exact .commit ih hmove hr hheld hplace hbatch hwrite

theorem of_tame (h : Tame w w') : Commits place w [] w' :=
  .quiet .refl (.tame h) (.inl (by rw [h.disk]))

theorem consistent (hw : Consistent w) (h : Commits place w commits w') : Consistent w' := by
  induction h with
  | refl => exact hw
  | quiet _ hmove _ ih => exact ih.move hmove
  | commit _ hmove _ _ _ _ _ ih => exact ih.move hmove

theorem of_move (hw : Consistent w) (h : Move w w') (place : List String) :
    ∃ commits, commits.length ≤ 1 ∧ Commits place w commits w' := by
  cases h with
  | tame htame => exact ⟨[], Nat.zero_le _, .of_tame htame⟩
  | make id options networked hdisk hengines hheld =>
      have hquiet : Quiet w.disk w'.disk (logPlace place) := .inl (by rw [hdisk])
      exact ⟨[], Nat.zero_le _, .quiet .refl (.make id options networked hdisk hengines hheld) hquiet⟩
  | openDirectory hopen hengines hheld =>
      have hext := (openDirectory_of_logsRepresent hw.logs hopen).1
      exact ⟨[], Nat.zero_le _,
        .quiet .refl (.openDirectory hopen hengines hheld) (quiet_of_extends hext _)⟩
  | refuse hopen hengines hheld =>
      have hext := (openDirectory_of_logsRepresent hw.logs hopen).1
      exact ⟨[], Nat.zero_le _,
        .quiet .refl (.refuse hopen hengines hheld) (quiet_of_extends hext _)⟩
  | @write handle batch e e' disk hheld he hwrite hrepresented =>
      have hmove := Move.write hheld he hwrite hrepresented
      -- The batch goes to the log at this place, to one at another place, or to memory.
      by_cases hplace : e.directory? = some place
      · obtain ⟨batches, bs, hpersists⟩ := hw.persists he hheld hplace
        rcases hpersists.write hwrite with ⟨-, -, hdisk⟩ | ⟨record, hbatch, -⟩
        · exact ⟨[], Nat.zero_le _, .quiet .refl hmove (.inl (by rw [hdisk]))⟩
        · exact ⟨_, Nat.le_refl _, .commit .refl hmove he hheld hplace hbatch hwrite⟩
      · -- The log that is written to, if there is one, is at another place.
        have hsame : disk.content? (logPlace place) = w.disk.content? (logPlace place) := by
          refine content?_of_write hwrite fun place' hplace' heq => hplace ?_
          rw [hplace', logPlace_injective heq]
        exact ⟨[], Nat.zero_le _, .quiet .refl hmove (.inl hsame)⟩

theorem of_moves (hw : Consistent w) (h : Moves w w') (place : List String) :
    ∃ commits, Commits place w commits w' := by
  induction h with
  | refl => exact ⟨[], .refl⟩
  | tail hmoves hmove ih =>
      obtain ⟨commits, hcommits⟩ := ih
      obtain ⟨commits', -, hcommits'⟩ := of_move (hw.moves hmoves) hmove place
      exact ⟨_, hcommits.trans hcommits'⟩

end Commits

/-! ## Logs of commits -/

/-- The log at a place holds the records of the commits, and each of them found the table that the ones
before it had made. -/
structure Logged (place : List String) (commits : List Commit) (w : World) : Prop where
  log : commits = [] ∧ w.disk.content? (logPlace place) = none ∨
    ∃ bs, w.disk.content? (logPlace place) = some bs ∧
      Log.encodeAll (commits.map Commit.batch) = .ok bs
  tables : ∀ k, tableAfter (commits.take k) = Log.replay ((commits.take k).map Commit.batch)

namespace Logged

variable {place : List String} {w w' : World} {before commits : List Commit}

theorem nil (h : w.disk.content? (logPlace place) = none) : Logged place [] w where
  log := .inl ⟨rfl, h⟩
  tables k := by
    rw [List.take_nil]
    rfl

theorem encodeAll_of_content {bs : Bytes} (h : Logged place commits w)
    (hlog : w.disk.content? (logPlace place) = some bs) :
    Log.encodeAll (commits.map Commit.batch) = .ok bs := by
  rcases h.log with ⟨-, hnone⟩ | ⟨bs', hbs', hencoded⟩
  · rw [hlog] at hnone
    cases hnone
  · rw [hlog] at hbs'
    cases hbs'
    exact hencoded

theorem tableAfter_eq (h : Logged place commits w) :
    tableAfter commits = Log.replay (commits.map Commit.batch) := by
  have hall := h.tables commits.length
  rwa [List.take_length] at hall

/-- An engine that has the directory open holds what the last commit has made. -/
theorem table_of_held (h : Logged place commits w) (hw : Consistent w) {r : EngineRef} {e : Engine}
    (he : w.engines.get? r = some e) (hheld : w.isEngineHeld r = true)
    (hplace : e.directory? = some place) : e.table = tableAfter commits := by
  obtain ⟨batches, bs, hpersists⟩ := hw.persists he hheld hplace
  have hencoded := h.encodeAll_of_content hpersists.log
  rw [hpersists.table, h.tableAfter_eq, Log.encodeAll_injective hpersists.encoded hencoded]

/-- One more commit. -/
theorem concat (h : Logged place commits w) (hw : Consistent w) {r : EngineRef} {batch : Batch}
    {e e' : Engine} {disk : Disk} (he : w.engines.get? r = some e) (hheld : w.isEngineHeld r = true)
    (hplace : e.directory? = some place) (hbatch : batch.isEmpty = false)
    (hwrite : e.write batch w.disk = .ok (e', disk)) :
    Logged place (commits ++ [{ batch, table := e'.table }])
      { w with engines := w.engines.insert r e', disk } := by
  obtain ⟨batches, bs, hpersists⟩ := hw.persists he hheld hplace
  have hencoded := h.encodeAll_of_content hpersists.log
  have hbatches := Log.encodeAll_injective hpersists.encoded hencoded
  subst hbatches
  rcases hpersists.write hwrite with ⟨hempty, -⟩ | ⟨record, -, -, hpersists'⟩
  · rw [hbatch] at hempty
    cases hempty
  have hmap : (commits ++ [({ batch, table := e'.table } : Commit)]).map Commit.batch =
      commits.map Commit.batch ++ [batch] := by simp
  constructor
  · refine .inr ⟨_, hpersists'.log, ?_⟩
    rw [hmap]
    exact hpersists'.encoded
  · intro k
    -- The first commits are what they were, and all together they give the new table.
    by_cases hk : k ≤ commits.length
    · rw [List.take_append_of_le_length hk]
      exact h.tables k
    · rw [List.take_of_length_le (by simp; omega), hmap, ← hpersists'.table]
      simp [tableAfter]

theorem of_commits (h : Logged place before w) (hw : Consistent w)
    (hcommits : Commits place w commits w') : Logged place (before ++ commits) w' := by
  induction hcommits with
  | refl =>
      rw [List.append_nil]
      exact h
  | quiet _ hmove hquiet ih =>
      refine ⟨?_, ih.tables⟩
      rcases hquiet with hsame | ⟨hnone, hnew⟩
      · rw [hsame]
        exact ih.log
      -- A log that only now comes to be has no commits yet.
      · rcases ih.log with ⟨hnil, -⟩ | ⟨bs, hbs, -⟩
        · rw [hnil]
          exact .inr ⟨[], hnew, rfl⟩
        · rw [hnone] at hbs
          cases hbs
  | commit hbefore hmove he hheld hplace hbatch hwrite ih =>
      rw [← List.append_assoc]
      exact ih.concat (hbefore.consistent hw) he hheld hplace hbatch hwrite

end Logged

/-! ## Calls that commit once -/

/-- A consistent world that is reached with a number of commits at most, where the engine behind the
handle is held. -/
structure Served (place : List String) (w₀ : World) (handle : Handle) (count : Nat) (w : World) :
    Prop where
  consistent : Consistent w
  held : w.isEngineHeld handle.engine = true
  commits : ∃ commits, commits.length ≤ count ∧ Commits place w₀ commits w

theorem tracks_served (place : List String) (w₀ : World) (handle : Handle) (count : Nat) :
    Tracks handle (Served place w₀ handle count) (Served place w₀ handle (count + 1))
      Table.Represented where
  setsFaults h hw := by
    obtain ⟨commits, hcount, hcommits⟩ := h.commits
    refine ⟨h.consistent.tame hw.tame, hw.isEngineHeld_iff.mpr h.held, commits, hcount, ?_⟩
    have htrans := hcommits.trans (.of_tame hw.tame)
    rwa [List.append_nil] at htrans
  accepted h he hwrite hrepresented := by
    have hmove := Move.write h.held he hwrite hrepresented
    obtain ⟨commits, hcount, hcommits⟩ := h.commits
    -- One accepted batch is one commit at most.
    obtain ⟨commits', hone, hcommits'⟩ := Commits.of_move h.consistent hmove place
    refine ⟨h.consistent.move hmove, h.held, _, ?_, hcommits.trans hcommits'⟩
    rw [List.length_append]
    exact Nat.add_le_add hcount hone
  after_of_before h := by
    obtain ⟨commits, hcount, hcommits⟩ := h.commits
    exact ⟨h.consistent, h.held, commits, Nat.le_succ_of_le hcount, hcommits⟩

/-- Whether a call asks an engine for one batch at most. -/
def Call.isSingle : Call → Bool
  | .edit _ change => change.isSingle
  | _ => false

/-- A change that asks for one write at most is one commit at most. -/
theorem commits_edit {w : World} (hw : Consistent w) (hplain : Plain w) (place : List String)
    (name : String) {edit : Access.Edit} (hsingle : edit.isSingle = true) :
    ∃ commits, Commits place w commits (step w (.edit name edit)) ∧ commits.length ≤ 1 := by
  rcases onDepot_withObjects_cases hplain name fun kv codec => edit.act kv codec with
    hsame | ⟨handle, hheld, hdone⟩
  · refine ⟨[], ?_, Nat.zero_le _⟩
    rw [step, hsame]
    exact .refl
  · have hserved : Served place w handle 0 w := ⟨hw, hheld, [], Nat.zero_le _, .refl⟩
    have hact := Access.after_of_act (tracks_served place w handle 0).lawful
      Table.closedUnderAccess_represented (fun h => h.consistent.represented_content handle) hserved
      hsingle
    obtain ⟨commits, hcount, hcommits⟩ := (Ensures.exec_snd hact).commits
    refine ⟨commits, ?_, hcount⟩
    rw [step, hdone]
    exact hcommits

/-- What a call commits. -/
theorem commits_step {w : World} (hw : Consistent w) (hplain : Plain w) (place : List String)
    (call : Call) :
    ∃ commits, Commits place w commits (step w call) ∧
      (call.isSingle = true → commits.length ≤ 1) := by
  cases hsingle : call.isSingle with
  | false =>
      obtain ⟨commits, hcommits⟩ := Commits.of_moves hw (moves_step hw hplain call).1 place
      exact ⟨commits, hcommits, fun h => by cases h⟩
  | true =>
      cases call with
      | edit name edit =>
          have hsingle' : edit.isSingle = true := hsingle
          obtain ⟨commits, hcommits, hcount⟩ := commits_edit hw hplain place name hsingle'
          exact ⟨commits, hcommits, fun _ => hcount⟩
      | _ => cases hsingle

/-! ## Runs and their commits -/

/-- What a run commits at a place, call by call. A put, a delete and a clear commit one batch at most,
and after every call an engine that has the directory open holds what the last commit has made. -/
inductive Traces (place : List String) (w : World) : List Call → List Commit → Prop where
  | nil : Traces place w [] []
  | concat {calls : List Call} {before commits : List Commit} {call : Call} :
      Traces place w calls before →
      Commits place (run w calls) commits (run w (calls ++ [call])) →
      (call.isSingle = true → commits.length ≤ 1) →
      (∀ r e, (run w (calls ++ [call])).engines.get? r = some e →
        (run w (calls ++ [call])).isEngineHeld r = true → e.directory? = some place →
          e.table = tableAfter (before ++ commits)) →
      Traces place w (calls ++ [call]) (before ++ commits)

/-- Every run from a world without logs has commits, and the log keeps them. -/
theorem exists_traces {w : World} (hw : Consistent w) (hplain : Plain w) {place : List String}
    (hlog : w.disk.content? (logPlace place) = none) (calls : List Call) :
    ∃ commits, Traces place w calls commits ∧ Logged place commits (run w calls) := by
  induction calls using List.reverseRecOn with
  | nil => exact ⟨[], .nil, .nil hlog⟩
  | append_singleton calls call ih =>
      obtain ⟨before, htraces, hlogged⟩ := ih
      obtain ⟨hmoves, hplain'⟩ := moves_run hw hplain calls
      have hw' := hw.moves hmoves
      have hrun : run w (calls ++ [call]) = step (run w calls) call := by simp [run]
      -- The last call starts in the world that the calls before it have led to.
      obtain ⟨commits, hcommits, hsingle⟩ := commits_step hw' hplain' place call
      rw [← hrun] at hcommits
      have hlogged' := hlogged.of_commits hw' hcommits
      refine ⟨before ++ commits, .concat htraces hcommits hsingle ?_, hlogged'⟩
      intro r e he hheld hplace
      -- The commits of the run so far are in the log, and the engine holds what the log gives.
      exact hlogged'.table_of_held (hcommits.consistent hw') he hheld hplace

end ObjectStore.World
