import Intreccio.Cluster.WriteSet

/-! Staging a write (`cluster/record.go`, `raftNode.ApplyWrite`): the statement runs on a recording
transaction that is rolled back, and its recorded mutations are replicated instead. Replaying them
on the same state gives what the statement saw at its end, unless the engine refused a write: a
refused mutation is recorded all the same, and the replay then stops at it.
-/

namespace Intreccio.Cluster

open Kv Words List

structure RecordTxn where
  real : RealTxn
  ops : List Op

def newRecordTxn (real : RealTxn) : RecordTxn := ⟨real, []⟩

namespace RecordTxn

def get (r : RecordTxn) (key : Bytes) : Option Bytes := r.real.view.get key

/-- `Scan` and `ScanFrom`, read to the end. -/
def scan (r : RecordTxn) (range : Bytes → Bool) : List (Bytes × Bytes) := r.real.view.select range

/-- The mutation is recorded before the engine has accepted it. -/
def mutate (engine : Engine) (r : RecordTxn) (o : Op) : Except Err Unit × RecordTxn :=
  let (result, real) := r.real.mutate engine o
  (result, ⟨real, r.ops ++ [o]⟩)

def set (engine : Engine) (r : RecordTxn) (key val : Bytes) : Except Err Unit × RecordTxn :=
  r.mutate engine (.set key val)

def delete (engine : Engine) (r : RecordTxn) (key : Bytes) : Except Err Unit × RecordTxn :=
  r.mutate engine (.del key)

def empty (r : RecordTxn) : Bool := r.ops.isEmpty

end RecordTxn

/-- Code that is handed a `storage.Txn`: a sequence of calls in which each call may depend on what
the earlier ones returned, refusals included.
-/
inductive Stage (α : Type) where
  | done (result : Except Err α)
  | get (key : Bytes) (next : Option Bytes → Stage α)
  | scan (range : Bytes → Bool) (next : List (Bytes × Bytes) → Stage α)
  | set (key val : Bytes) (next : Except Err Unit → Stage α)
  | delete (key : Bytes) (next : Except Err Unit → Stage α)

variable {α : Type}

def Stage.run (engine : Engine) : Stage α → RecordTxn → Except Err α × RecordTxn
  | .done result, r => (result, r)
  | .get key next, r => (next (r.get key)).run engine r
  | .scan range next, r => (next (r.scan range)).run engine r
  | .set key val next, r =>
    let (result, r) := r.set engine key val
    (next result).run engine r
  | .delete key next, r =>
    let (result, r) := r.delete engine key
    (next result).run engine r

/-- The recording transaction when the code has ended. -/
def Stage.recorded (engine : Engine) (stage : Stage α) (s : Store) : RecordTxn :=
  (stage.run engine (newRecordTxn ⟨s, []⟩)).2

def errStaged : Err := .plain "cluster: staged (rolled back, replicated via raft)"

/-- `errors.Is(err, errStaged)`. -/
def isStaged : Err → Bool
  | .wrap message cause => .wrap message cause = errStaged || isStaged cause
  | e => e = errStaged

/-- The function `ApplyWrite` hands to `store.Update`, with the result and the write-set it leaves
in the captured variables. It returns an error on every path.
-/
def stageClosure (engine : Engine) (stage : Stage α) (real : RealTxn)
    : Except Err Unit × (Option α × Option Bytes) × RealTxn :=
  match stage.run engine (newRecordTxn real) with
  | (.error e, rec) => (.error e, (none, none), rec.real)
  | (.ok r, rec) =>
    if rec.empty then (.error errStaged, (some r, none), rec.real)
    else (.error errStaged, (some r, some (encode rec.ops)), rec.real)

/-- The staging part of `ApplyWrite`: the statement's result and the write-set to propose, if it
made any mutation, and the store afterwards.
-/
def stageWrite (engine : Engine) (stage : Stage α) (s : Store)
    : Except Err (Option α × Option Bytes) × Store :=
  match engine.update (stageClosure engine stage) s with
  | (.error e, captured, s) => if isStaged e then (.ok captured, s) else (.error e, s)
  | (.ok _, captured, s) => (.ok captured, s)

variable {engine : Engine} {s : Store}

/-- An update whose function returns an error leaves the store as it was. -/
theorem Engine.update_error {γ : Type} {fn : RealTxn → Except Err Unit × γ × RealTxn} {e : Err}
    (failed : (fn ⟨s, []⟩).1 = .error e)
    : engine.update fn s = (.error e, (fn ⟨s, []⟩).2.1, s) := by
  rcases ended : fn ⟨s, []⟩ with ⟨_ | _, captured, t⟩
  · rw [ended] at failed
    obtain rfl := Except.error.inj failed
    simp only [Engine.update, ended]
  · simp [ended] at failed

theorem stageClosure_error (engine : Engine) (stage : Stage α) (real : RealTxn)
    : ∃ e, (stageClosure engine stage real).1 = .error e := by
  unfold stageClosure
  rcases stage.run engine (newRecordTxn real) with ⟨e | r, rec⟩
  · exact ⟨e, rfl⟩
  · refine ⟨errStaged, ?_⟩
    dsimp only
    split <;> rfl

/-- The staging transaction is rolled back. -/
theorem stageWrite_store (engine : Engine) (stage : Stage α) (s : Store)
    : (stageWrite engine stage s).2 = s := by
  obtain ⟨e, failed⟩ := stageClosure_error engine stage ⟨s, []⟩
  rw [stageWrite, Engine.update_error failed]
  dsimp only
  split <;> rfl

/-- The engine accepts these mutations one after the other. -/
def Admitted (engine : Engine) (ops : List Op) : Prop :=
  ∀ before o, before ++ [o] <+: ops → engine.refusal before o = none

theorem Admitted.snoc {ops : List Op} {o : Op} (admitted : Admitted engine ops)
    (accepted : engine.refusal ops o = none)
    : Admitted engine (ops ++ [o]) := by
  intro before last pre
  rcases prefix_concat_iff.mp pre with same | inside
  · obtain ⟨rfl, rfl⟩ := append_inj' same rfl |>.imp id singleton_inj.mp
    exact accepted
  · exact admitted before last inside

/-- A recording of code that ran on `s`: the view holds the accepted mutations, and either all the
recorded mutations were accepted, or the engine refuses one of them whenever they are replayed.
-/
structure Recording (engine : Engine) (s : Store) (r : RecordTxn) : Prop where
  view : r.real.view = s.overwrite (r.real.accepted.map Op.write)
  verdict : (r.real.accepted = r.ops ∧ Admitted engine r.ops)
    ∨ (r.real.accepted.length < r.ops.length ∧ ¬ Admitted engine r.ops)

theorem Recording.start (engine : Engine) (s : Store) : Recording engine s (newRecordTxn ⟨s, []⟩) := by
  refine ⟨rfl, .inl ⟨rfl, ?_⟩⟩
  intro before o pre
  have short := pre.length_le
  simp [newRecordTxn] at short

/-- A mutation keeps the recording.
Witness: while all was accepted, the engine's answer decides; after a refusal, more mutations
change nothing about it.
-/
theorem Recording.mutate {r : RecordTxn} (recording : Recording engine s r) (o : Op)
    : Recording engine s (r.mutate engine o).2 := by
  obtain ⟨⟨view, accepted⟩, ops⟩ := r
  obtain ⟨seen, verdict⟩ := recording
  dsimp only at seen verdict
  have longer (refused : ¬ Admitted engine ops) : ¬ Admitted engine (ops ++ [o]) := by
    intro admitted
    apply refused
    intro before last pre
    exact admitted before last (pre.trans (prefix_append _ _))
  cases answer : engine.refusal accepted o with
  | some e =>
    simp only [RecordTxn.mutate, RealTxn.mutate, answer]
    refine ⟨seen, .inr ?_⟩
    rcases verdict with ⟨rfl, admitted⟩ | ⟨fewer, refused⟩
    · refine ⟨by simp, fun admitted => ?_⟩
      have accepts := admitted accepted o prefix_rfl
      rw [answer] at accepts
      simp at accepts
    · exact ⟨by simp only [length_append] at fewer ⊢; omega, longer refused⟩
  | none =>
    simp only [RecordTxn.mutate, RealTxn.mutate, answer]
    refine ⟨by simp [seen], ?_⟩
    rcases verdict with ⟨rfl, admitted⟩ | ⟨fewer, refused⟩
    · exact .inl ⟨rfl, admitted.snoc answer⟩
    · exact .inr ⟨by simpa using fewer, longer refused⟩

theorem Recording.run {r : RecordTxn} (stage : Stage α) (recording : Recording engine s r)
    : Recording engine s (stage.run engine r).2 := by
  induction stage generalizing r with
  | done result => exact recording
  | get key next ih => exact ih _ recording
  | scan range next ih => exact ih _ recording
  | set key val next ih => exact ih _ (recording.mutate _)
  | delete key next ih => exact ih _ (recording.mutate _)

theorem Stage.recording (engine : Engine) (stage : Stage α) (s : Store)
    : Recording engine s (stage.recorded engine s) :=
  .run stage (.start engine s)

/-- Performing mutations succeeds exactly when the engine admits them after those it has. -/
theorem performAll_ok (ops : List Op) (t : RealTxn) (admitted : Admitted engine t.accepted)
    : (t.performAll engine ops).1 = .ok () ↔ Admitted engine (t.accepted ++ ops) := by
  induction ops generalizing t with
  | nil => simp [RealTxn.performAll, admitted]
  | cons o rest ih =>
    cases answer : engine.refusal t.accepted o with
    | some e =>
      simp only [RealTxn.performAll, RealTxn.mutate, answer, reduceCtorEq, false_iff]
      intro all
      have accepts := all t.accepted o (by simp)
      simp [answer] at accepts
    | none =>
      simp only [RealTxn.performAll, RealTxn.mutate, answer]
      rw [ih _ (admitted.snoc answer)]
      simp

theorem performAll_admitted {ops : List Op} {t : RealTxn}
    (admitted : Admitted engine (t.accepted ++ ops))
    : t.performAll engine ops = (.ok (), ⟨t.view.overwrite (ops.map Op.write), t.accepted ++ ops⟩) := by
  induction ops generalizing t with
  | nil => simp [RealTxn.performAll]
  | cons o rest ih =>
    have answer : engine.refusal t.accepted o = none := admitted t.accepted o (by simp)
    simp only [RealTxn.performAll, RealTxn.mutate, answer]
    rw [ih (by simpa using admitted)]
    simp

/-- The engine accepted every mutation of the code, and accepts the commit of them. -/
def Stage.Accepted (engine : Engine) (stage : Stage α) (s : Store) : Prop :=
  (stage.recorded engine s).real.accepted = (stage.recorded engine s).ops
    ∧ engine.commitRefusal (stage.recorded engine s).ops = none

def Stage.writeSet (engine : Engine) (stage : Stage α) (s : Store) : Bytes :=
  encode (stage.recorded engine s).ops

/-- An accepted write-set replays to what the code saw at its end. -/
theorem update_writeSet {stage : Stage α} (sized : Sized (stage.recorded engine s).ops)
    (accepted : stage.Accepted engine s)
    : engine.update (applyWriteSet engine (stage.writeSet engine s)) s
      = (.ok (), (), (stage.recorded engine s).real.view) := by
  have recording := stage.recording engine s
  have replayed := applyWriteSet_encode engine sized ⟨s, []⟩
  obtain ⟨all, committed⟩ := accepted
  have admitted : Admitted engine (stage.recorded engine s).ops := by
    rcases recording.verdict with ⟨-, admitted⟩ | ⟨fewer, -⟩
    · exact admitted
    · exact absurd (congrArg List.length all) (Nat.ne_of_lt fewer)
  rw [performAll_admitted admitted] at replayed
  have sight := recording.view
  rw [all] at sight
  simp only [nil_append] at replayed
  simp only [Stage.writeSet, Engine.update, replayed, committed, sight]

/-- A write-set with a refused mutation, or one the engine does not commit, fails to replay. -/
theorem update_writeSet_refused {stage : Stage α} (sized : Sized (stage.recorded engine s).ops)
    (refused : ¬ stage.Accepted engine s)
    : (engine.update (applyWriteSet engine (stage.writeSet engine s)) s).1 ≠ .ok () := by
  have recording := stage.recording engine s
  have replayed := applyWriteSet_encode engine sized ⟨s, []⟩
  have start : Admitted engine [] := by
    intro before o pre
    simpa using pre.length_le
  have outcome := performAll_ok (stage.recorded engine s).ops ⟨s, []⟩ start
  rcases recording.verdict with ⟨all, admitted⟩ | ⟨-, rejected⟩
  · rw [performAll_admitted admitted] at replayed
    cases refusal : engine.commitRefusal (stage.recorded engine s).ops with
    | some e => simp [Stage.writeSet, Engine.update, replayed, refusal]
    | none => exact absurd ⟨all, refusal⟩ refused
  · rcases ended : RealTxn.performAll engine (stage.recorded engine s).ops ⟨s, []⟩ with ⟨e | u, t⟩
    · rw [ended] at replayed
      simp [Stage.writeSet, Engine.update, replayed]
    · exact absurd (outcome.mp (by rw [ended])) rejected

/-- Replicating the effects of code equals executing it, exactly when the engine accepted them;
staging leaves the store alone.
-/
theorem replay_writeSet (engine : Engine) (stage : Stage α) (s : Store)
    (sized : Sized (stage.recorded engine s).ops)
    : ((engine.update (applyWriteSet engine (stage.writeSet engine s)) s).1 = .ok ()
        ↔ stage.Accepted engine s)
      ∧ (stage.Accepted engine s
        → engine.update (applyWriteSet engine (stage.writeSet engine s)) s
          = (.ok (), (), (stage.recorded engine s).real.view))
      ∧ (stageWrite engine stage s).2 = s := by
  refine ⟨⟨fun replayed => ?_, fun accepted => ?_⟩, update_writeSet sized,
    stageWrite_store engine stage s⟩
  · by_contra refused
    exact update_writeSet_refused sized refused replayed
  · rw [update_writeSet sized accepted]

/-- An engine that refuses what the bolt adapter's `Set` refuses. -/
def boltEngine : Engine where
  refusal := fun _ o =>
    match o with
    | .set [] _ => some (.plain "bolt: empty key")
    | _ => none
  commitRefusal := fun _ => none

/-- Code that writes an empty key and goes on after the refusal. -/
def emptyKeyIgnored : Stage Unit := .set [] [] (fun _ => .done (.ok ()))

/-- The refused write is in the write-set, so the replay fails. -/
theorem replay_emptyKeyIgnored
    : (boltEngine.update (applyWriteSet boltEngine (emptyKeyIgnored.writeSet boltEngine .empty))
        .empty).1 = .error (.plain "bolt: empty key") := by
  rfl

/-- Code that writes a key twice, deletes another and ends after reading the first back. -/
def rewriting : Stage (Option Bytes) :=
  .set [1] [] (fun _ => .delete [2] (fun _ => .set [1] [7] (fun _ => .get [1] (fun v =>
    .done (.ok v)))))

theorem replay_rewriting
    : rewriting.Accepted boltEngine .empty
      ∧ boltEngine.update (applyWriteSet boltEngine (rewriting.writeSet boltEngine .empty)) .empty
        = (.ok (), (), (rewriting.recorded boltEngine .empty).real.view) :=
  have accepted : rewriting.Accepted boltEngine .empty := ⟨rfl, rfl⟩
  ⟨accepted, (replay_writeSet boltEngine rewriting .empty
    ⟨by decide, by decide⟩).2.1 accepted⟩

/-- A function over `storage.Txn` returns at once when the engine refuses one of its writes. -/
def Stage.ofTxn : Txn α → Stage α
  | .ret a => .done (.ok a)
  | .fail e => .done (.error e)
  | .get key next => .get key (fun v => ofTxn (next v))
  | .set key val next => .set key val (fun
      | .ok _ => ofTxn next
      | .error e => .done (.error e))
  | .delete key next => .delete key (fun
      | .ok _ => ofTxn next
      | .error e => .done (.error e))
  | .scan range next => .scan range (fun l => ofTxn (next l))
  | .probe range next => .scan range (fun l => ofTxn (next (!l.isEmpty)))

/-- Unless the engine refuses a write, staged code sees what the function sees on the store. -/
theorem run_ofTxn (lenient : ∀ before o, engine.refusal before o = none) (p : Txn α) (r : RecordTxn)
    : ((Stage.ofTxn p).run engine r).1 = (p.run r.real.view).1
      ∧ ((Stage.ofTxn p).run engine r).2.real.view = (p.run r.real.view).2 := by
  induction p generalizing r with
  | ret a => exact ⟨rfl, rfl⟩
  | fail e => exact ⟨rfl, rfl⟩
  | get key next ih => exact ih _ r
  | scan range next ih => exact ih _ r
  | probe range next ih => exact ih _ r
  | set key val next ih =>
    simp only [Stage.ofTxn, Stage.run, RecordTxn.set, RecordTxn.mutate, RealTxn.mutate, lenient]
    exact ih _
  | delete key next ih =>
    simp only [Stage.ofTxn, Stage.run, RecordTxn.delete, RecordTxn.mutate, RealTxn.mutate, lenient]
    exact ih _

/-- Replicating a function of the graph layer leaves what running it on the store leaves. -/
theorem fsmApply_ofTxn (lenient : ∀ before o, engine.refusal before o = none)
    (commits : ∀ ops, engine.commitRefusal ops = none) (p : Txn α) (s : Store)
    (sized : Sized ((Stage.ofTxn p).recorded engine s).ops)
    : fsmApply engine s ((Stage.ofTxn p).writeSet engine s) = (p.run s).2 := by
  have recording := (Stage.ofTxn p).recording engine s
  have accepted : (Stage.ofTxn p).Accepted engine s := by
    refine ⟨?_, commits _⟩
    rcases recording.verdict with ⟨accepted, -⟩ | ⟨-, refused⟩
    · exact accepted
    · exact absurd (fun before o _ => lenient before o) refused
  rw [fsmApply, update_writeSet sized accepted]
  exact (run_ofTxn lenient p (newRecordTxn ⟨s, []⟩)).2

end Intreccio.Cluster
