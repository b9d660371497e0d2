import Intreccio.Cluster.Staging

/-! The answer of a cluster write (`raftNode.ApplyWrite` in `cluster/node.go`, `fsm.Apply` in
`cluster/fsm.go`). The state machine's outcome comes back as the response of Raft's future, next to
its error, and `ApplyWrite` asks for the error only: a write the store refuses is acknowledged.
-/

namespace Intreccio.Cluster

open Kv Words

variable {α : Type}

/-- `fsm.Apply` of a command: what it returns to Raft, and the store afterwards. -/
def fsmOutcome (engine : Engine) (data : Bytes) (s : Store) : Except Err Unit × Store :=
  let (result, _, after) := engine.update (applyWriteSet engine data) s
  (result, after)

/-- A proposal that has ended: the future's `Error()` and `Response()`, and the leader's store when
the state machine came to the entry and when it was done.
-/
structure Replication where
  error : Option Err
  response : Option (Except Err Unit)
  before : Store
  after : Store

/-- Raft as `ApplyWrite` uses it: the role and term of the node, what a barrier answers and the
store it leaves, and what becomes of a proposal.
-/
structure Raft where
  leader : Bool
  currentTerm : Nat
  barrier : Store → Option Err × Store
  apply : Bytes → Store → Replication

/-- An entry that was replicated went through the state machine, which runs on `engine`, and the
response is what it returned.
-/
def Raft.Faithful (raft : Raft) (engine : Engine) : Prop :=
  ∀ data s, (raft.apply data s).error = none
    → (raft.apply data s).response = some (fsmOutcome engine data (raft.apply data s).before).1
      ∧ (raft.apply data s).after = (fsmOutcome engine data (raft.apply data s).before).2

/-- The fields of `raftNode` that `ApplyWrite` works on. -/
structure RaftNode where
  store : Store
  barrierTerm : Nat

def errNotLeader : Err := .plain "cluster: not leader"

/-- The first write of a term waits for the state machine to catch up. -/
def leaderBarrier (raft : Raft) (n : RaftNode) : Except Err Unit × RaftNode :=
  if raft.currentTerm ≠ n.barrierTerm then
    match raft.barrier n.store with
    | (some e, s) => (.error (.because "cluster: leader barrier" e), ⟨s, n.barrierTerm⟩)
    | (none, s) => (.ok (), ⟨s, raft.currentTerm⟩)
  else (.ok (), n)

/-- How a call of `ApplyWrite` ended: its answer, the node, and the proposal it made, if any. -/
structure Written (α : Type) where
  answer : Except Err (Option α)
  node : RaftNode
  proposal : Option Replication

def replicateWrite (raft : Raft) (engine : Engine) (stage : Stage α) (n : RaftNode) : Written α :=
  match stageWrite engine stage n.store with
  | (.error e, s) => ⟨.error e, ⟨s, n.barrierTerm⟩, none⟩
  | (.ok (result, none), s) => ⟨.ok result, ⟨s, n.barrierTerm⟩, none⟩
  | (.ok (result, some writeSet), s) =>
    let proposal := raft.apply writeSet s
    let node : RaftNode := ⟨proposal.after, n.barrierTerm⟩
    match proposal.error with
    | some e => ⟨.error (.because "cluster: replicate write" e), node, some proposal⟩
    | none => ⟨.ok result, node, some proposal⟩

def applyWrite (raft : Raft) (engine : Engine) (stage : Stage α) (n : RaftNode) : Written α :=
  if raft.leader then
    match leaderBarrier raft n with
    | (.error e, n) => ⟨.error e, n, none⟩
    | (.ok _, n) => replicateWrite raft engine stage n
  else ⟨.error errNotLeader, n, none⟩

/-- The store the statement is staged on. -/
def Raft.stagedOn (raft : Raft) (n : RaftNode) : Store := (leaderBarrier raft n).2.store

/-- The state machine performed these mutations, all of them, and the leader's store has them. -/
def Written.AppliedInFull (w : Written α) (ops : List Op) : Prop :=
  ∃ proposal, w.proposal = some proposal ∧ proposal.response = some (.ok ())
    ∧ w.node.store = proposal.before.overwrite (ops.map Op.write)

/-- The engine takes these mutations in one transaction and commits it. -/
def Engine.Accepts (engine : Engine) (ops : List Op) : Prop :=
  Admitted engine ops ∧ engine.commitRefusal ops = none

/-- The staged code returned, or failed with an error of its own. -/
def Stage.NotMistaken (engine : Engine) (stage : Stage α) (s : Store) : Prop :=
  ∀ e, (stage.run engine (newRecordTxn ⟨s, []⟩)).1 = .error e → isStaged e = false

/-- What the state machine answers for an encoded recording.
Witness: decoding inverts encoding, and the engine's answers decide about the rest.
-/
theorem fsmOutcome_encode {engine : Engine} {ops : List Op} (sized : Sized ops) (s : Store)
    : (fsmOutcome engine (encode ops) s).1 = .ok () ↔ engine.Accepts ops := by
  have replayed := applyWriteSet_encode engine sized ⟨s, []⟩
  have start : Admitted engine [] := by
    intro before o pre
    simpa using pre.length_le
  have performed := performAll_ok ops ⟨s, []⟩ start
  by_cases admitted : Admitted engine ops
  · rw [performAll_admitted admitted] at replayed
    cases refusal : engine.commitRefusal ops with
    | some e => simp [fsmOutcome, Engine.update, replayed, Engine.Accepts, refusal]
    | none => simp [fsmOutcome, Engine.update, replayed, Engine.Accepts, refusal, admitted]
  · rcases ended : RealTxn.performAll engine ops ⟨s, []⟩ with ⟨e | u, t⟩
    · simp [fsmOutcome, Engine.update, replayed, ended, Engine.Accepts, admitted]
    · exact absurd (performed.mp (by rw [ended])) admitted

theorem fsmOutcome_accepted {engine : Engine} {ops : List Op} (sized : Sized ops)
    (accepts : engine.Accepts ops) (s : Store)
    : fsmOutcome engine (encode ops) s = (.ok (), s.overwrite (ops.map Op.write)) := by
  have replayed := applyWriteSet_encode engine sized ⟨s, []⟩
  rw [performAll_admitted accepts.1] at replayed
  simp [fsmOutcome, Engine.update, replayed, accepts.2]

/-- What staging answers, by what the staged code returned. -/
theorem stageWrite_eq (engine : Engine) (stage : Stage α) (s : Store)
    : stageWrite engine stage s
      = match (stage.run engine (newRecordTxn ⟨s, []⟩)).1 with
        | .error e => if isStaged e then (.ok (none, none), s) else (.error e, s)
        | .ok r =>
          if (stage.recorded engine s).empty then (.ok (some r, none), s)
          else (.ok (some r, some (stage.writeSet engine s)), s) := by
  obtain ⟨e, failed⟩ := stageClosure_error engine stage ⟨s, []⟩
  rw [stageWrite, Engine.update_error failed]
  rcases ran : stage.run engine (newRecordTxn ⟨s, []⟩) with ⟨e' | r, rec⟩
  · simp only [stageClosure, ran] at failed ⊢
    obtain rfl := Except.error.inj failed
    rfl
  · have staged : isStaged errStaged = true := by decide
    simp only [stageClosure, Stage.recorded, Stage.writeSet, ran] at failed ⊢
    split at failed
    · next empty =>
        obtain rfl := Except.error.inj failed
        simp [empty, staged]
    · next full =>
        obtain rfl := Except.error.inj failed
        simp [full, staged]

theorem applyWrite_acknowledged {raft : Raft} {engine : Engine} {stage : Stage α} {n : RaftNode}
    {result : Option α} (acknowledged : (applyWrite raft engine stage n).answer = .ok result)
    : ∃ term, applyWrite raft engine stage n = replicateWrite raft engine stage ⟨raft.stagedOn n, term⟩ := by
  unfold applyWrite at acknowledged ⊢
  split at acknowledged
  · next leads =>
      rcases barred : leaderBarrier raft n with ⟨e | _, m⟩
      · simp [barred] at acknowledged
      · refine ⟨m.barrierTerm, ?_⟩
        rw [if_pos leads, Raft.stagedOn, barred]
  · cases acknowledged

/-- An acknowledged write with mutations is in the leader's store exactly when the staged code did
not return the staging marker itself and the engine of the state machine accepts the mutations:
nothing looks at what the state machine answered.
-/
theorem appliedInFull_iff_accepts {raft : Raft} {staging applying : Engine} {stage : Stage α}
    {n : RaftNode} {result : Option α} (faithful : raft.Faithful applying)
    (sized : Sized (stage.recorded staging (raft.stagedOn n)).ops)
    (acknowledged : (applyWrite raft staging stage n).answer = .ok result)
    (mutated : (stage.recorded staging (raft.stagedOn n)).ops ≠ [])
    : (applyWrite raft staging stage n).AppliedInFull (stage.recorded staging (raft.stagedOn n)).ops
      ↔ stage.NotMistaken staging (raft.stagedOn n)
        ∧ applying.Accepts (stage.recorded staging (raft.stagedOn n)).ops := by
  obtain ⟨term, ran⟩ := applyWrite_acknowledged acknowledged
  rw [ran] at acknowledged ⊢
  generalize raft.stagedOn n = s at *
  have full : (stage.recorded staging s).empty = false := by
    rw [RecordTxn.empty, List.isEmpty_eq_false_iff]
    exact mutated
  cases returned : (stage.run staging (newRecordTxn ⟨s, []⟩)).1 with
  | error e =>
    -- The marker is taken for the staging's own, and nothing is proposed.
    have mistaken : isStaged e = true := by
      by_contra own
      simp [replicateWrite, stageWrite_eq, returned, own] at acknowledged
    have silent : (replicateWrite raft staging stage ⟨s, term⟩).proposal = none := by
      simp [replicateWrite, stageWrite_eq, returned, mistaken]
    constructor
    · rintro ⟨proposal, proposed, _⟩
      simp [silent] at proposed
    · rintro ⟨notMistaken, _⟩
      simp [notMistaken e returned] at mistaken
  | ok r =>
    have notMistaken : stage.NotMistaken staging s := fun e failed => by simp [returned] at failed
    have proposed : stageWrite staging stage s = (.ok (some r, some (stage.writeSet staging s)), s) := by
      rw [stageWrite_eq, returned]
      simp [full]
    cases replicated : (raft.apply (stage.writeSet staging s) s).error with
    | some e => simp [replicateWrite, proposed, replicated] at acknowledged
    | none =>
      obtain ⟨response, after⟩ := faithful _ _ replicated
      have written : replicateWrite raft staging stage ⟨s, term⟩
          = ⟨.ok (some r), ⟨(raft.apply (stage.writeSet staging s) s).after, term⟩,
            some (raft.apply (stage.writeSet staging s) s)⟩ := by
        simp only [replicateWrite, proposed, replicated]
      rw [written]
      constructor
      · rintro ⟨proposal, same, answered, _⟩
        obtain rfl := Option.some.inj same
        rw [response] at answered
        exact ⟨notMistaken, (fsmOutcome_encode sized _).mp (Option.some.inj answered)⟩
      · rintro ⟨_, accepts⟩
        have applied := fsmOutcome_accepted sized accepts (raft.apply (stage.writeSet staging s) s).before
        rw [← Stage.writeSet] at applied
        rw [applied] at response after
        exact ⟨_, rfl, response, after⟩

/-- Raft on a leader without followers, whose state machine runs on `engine`. -/
def soleRaft (engine : Engine) : Raft where
  leader := true
  currentTerm := 1
  barrier s := (none, s)
  apply data s := ⟨none, some (fsmOutcome engine data s).1, s, (fsmOutcome engine data s).2⟩

theorem soleRaft_faithful (engine : Engine) : (soleRaft engine).Faithful engine :=
  fun _ _ _ => ⟨rfl, rfl⟩

/-- Witness: the bolt engine takes the mutations. -/
theorem appliedInFull_rewriting
    : (applyWrite (soleRaft boltEngine) boltEngine rewriting ⟨.empty, 0⟩).AppliedInFull
        (rewriting.recorded boltEngine .empty).ops := by
  have acknowledged : (applyWrite (soleRaft boltEngine) boltEngine rewriting ⟨.empty, 0⟩).answer
      = .ok (some (some [7])) := rfl
  have admitted : Admitted boltEngine (rewriting.recorded boltEngine .empty).ops := by
    rcases (rewriting.recording boltEngine .empty).verdict with ⟨_, admitted⟩ | ⟨fewer, _⟩
    · exact admitted
    · exact absurd fewer (by decide)
  exact (appliedInFull_iff_accepts (soleRaft_faithful boltEngine) ⟨by decide, by decide⟩ acknowledged
    (by decide)).mpr ⟨fun e failed => (by cases failed), admitted, rfl⟩

/-- An engine whose commits fail. -/
def fullDisk : Engine where
  refusal := fun _ _ => none
  commitRefusal := fun _ => some (.plain "no space left on device")

/-- A write is acknowledged though the state machine's commit failed. -/
theorem not_appliedInFull_fullDisk
    : ¬ ∀ (raft : Raft) (staging applying : Engine) (stage : Stage (Option Bytes)) (n : RaftNode)
        (result : Option (Option Bytes)), raft.Faithful applying
      → (applyWrite raft staging stage n).answer = .ok result
      → (stage.recorded staging (raft.stagedOn n)).ops ≠ []
      → (applyWrite raft staging stage n).AppliedInFull (stage.recorded staging (raft.stagedOn n)).ops := by
  intro always
  obtain ⟨proposal, proposed, answered, _⟩ := always (soleRaft fullDisk) fullDisk fullDisk rewriting
    ⟨.empty, 0⟩ (some (some [7])) (soleRaft_faithful fullDisk) rfl (by decide)
  have refused : (applyWrite (soleRaft fullDisk) fullDisk rewriting ⟨.empty, 0⟩).proposal.bind
      Replication.response = some (.error (.plain "no space left on device")) := rfl
  rw [proposed, Option.bind_some, answered] at refused
  cases refused

end Intreccio.Cluster
