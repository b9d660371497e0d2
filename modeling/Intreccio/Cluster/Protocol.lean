import Intreccio.Cluster.Recovery
import Intreccio.Cluster.Staging

/-! Replicated writes (`raftNode.ApplyWrite`): the leader check, the once-per-term barrier, staging
on the local store and the proposal, interleaved with elections and with the state machines of the
other nodes. Raft is taken as one agreed log: an entry enters it when the leader of the newest term
processes the proposal.
-/

namespace Intreccio.Cluster

open Kv Words List

/-- A log entry. `base` is the store its write-set was staged on; it is not part of the log. -/
structure Entry where
  writeSet : Bytes
  base : Store

/-- Where a node's `ApplyWrite` stands. At most one call is past the lock at a time.
`since` is the term in which the call passed its term check or its barrier was processed.
-/
inductive Call where
  | idle
  | checked
  | fencing (term : Nat)
  | barrier (term since upTo : Nat)
  | ready (since : Nat)
  | staged (since : Nat) (writeSet : Bytes) (base : Store)
  | proposed (index since : Nat)

structure Node where
  term : Nat
  leader : Bool
  applied : Nat
  barrierTerm : Nat
  call : Call

/-- The nodes, the agreed log, the newest term an election was won in, and the log indices whose
writes were acknowledged.
-/
structure World (ι : Type) where
  nodes : ι → Node
  log : List Entry
  term : Nat
  acked : List Nat

variable {ι : Type} [DecidableEq ι]

namespace World

def new : World ι := ⟨fun _ => ⟨0, false, 0, 0, .idle⟩, [], 0, []⟩

def writeSets (w : World ι) : List Bytes := w.log.map Entry.writeSet

def put (w : World ι) (i : ι) (n : Node) : World ι := { w with nodes := Function.update w.nodes i n }

@[simp] theorem put_self (w : World ι) (i : ι) (n : Node) : (w.put i n).nodes i = n := by
  simp [put]

@[simp] theorem put_log (w : World ι) (i : ι) (n : Node) : (w.put i n).log = w.log := rfl

/-- The store of a node: the entries its state machine has applied. -/
def store (engine : Engine) (w : World ι) (i : ι) : Store :=
  stateAt engine w.writeSets (w.nodes i).applied

end World

/-- One step. `allowed` restricts the proposals that are processed. -/
inductive Step (engine : Engine) (allowed : Node → Prop) : World ι → World ι → Prop
  -- A node sees a newer term, from another node or because it starts an election.
  | raise {w : World ι} (i : ι) (t : Nat) (newer : (w.nodes i).term < t)
      : Step engine allowed w (w.put i { w.nodes i with term := t, leader := false })
  | stepDown {w : World ι} (i : ι)
      : Step engine allowed w (w.put i { w.nodes i with leader := false })
  | elect {w : World ι} (i : ι) (newest : w.term < (w.nodes i).term)
      : Step engine allowed w
          { w.put i { w.nodes i with leader := true } with term := (w.nodes i).term }
  | apply {w : World ι} (i : ι) (behind : (w.nodes i).applied < w.log.length)
      : Step engine allowed w (w.put i { w.nodes i with applied := (w.nodes i).applied + 1 })
  | check {w : World ι} (i : ι) (free : (w.nodes i).call = .idle)
      (leader : (w.nodes i).leader = true)
      : Step engine allowed w (w.put i { w.nodes i with call := .checked })
  -- `CurrentTerm` equals `barrierTerm`: no barrier is needed.
  | skipBarrier {w : World ι} (i : ι) (at_ : (w.nodes i).call = .checked)
      (confirmed : (w.nodes i).term = (w.nodes i).barrierTerm)
      : Step engine allowed w (w.put i { w.nodes i with call := .ready (w.nodes i).term })
  | needBarrier {w : World ι} (i : ι) (at_ : (w.nodes i).call = .checked)
      (unconfirmed : (w.nodes i).term ≠ (w.nodes i).barrierTerm)
      : Step engine allowed w (w.put i { w.nodes i with call := .fencing (w.nodes i).term })
  -- Raft processes the barrier: it stands behind everything in the log.
  | barrier {w : World ι} {t : Nat} (i : ι) (at_ : (w.nodes i).call = .fencing t)
      (leader : (w.nodes i).leader = true)
      : Step engine allowed w (w.put i { w.nodes i with
          call := .barrier t (w.nodes i).term w.log.length })
  -- The barrier returns: the node still leads that term and has applied what was before it.
  | passed {w : World ι} {t since upTo : Nat} (i : ι)
      (at_ : (w.nodes i).call = .barrier t since upTo) (leader : (w.nodes i).leader = true)
      (same : (w.nodes i).term = since) (caught : upTo ≤ (w.nodes i).applied)
      : Step engine allowed w (w.put i { w.nodes i with call := .ready since, barrierTerm := t })
  -- Staging on the local store yields a write-set.
  | stage {w : World ι} {since : Nat} {result : Option Unit} {writeSet : Bytes} (i : ι)
      (statement : Stage Unit) (at_ : (w.nodes i).call = .ready since)
      (ran : (stageWrite engine statement (w.store engine i)).1 = .ok (result, some writeSet))
      : Step engine allowed w (w.put i { w.nodes i with
          call := .staged since writeSet (w.store engine i) })
  -- The leader of the newest term processes the proposal.
  | append {w : World ι} {since : Nat} {writeSet : Bytes} {base : Store} (i : ι)
      (at_ : (w.nodes i).call = .staged since writeSet base) (leader : (w.nodes i).leader = true)
      (newest : (w.nodes i).term = w.term) (permitted : allowed (w.nodes i))
      : Step engine allowed w
          { w.put i { w.nodes i with call := .proposed w.log.length (w.nodes i).term } with
            log := w.log ++ [⟨writeSet, base⟩] }
  -- `raft.Apply` returns nil once the node's own state machine has applied the entry.
  | acknowledge {w : World ι} {index since : Nat} (i : ι)
      (at_ : (w.nodes i).call = .proposed index since) (applied : index < (w.nodes i).applied)
      : Step engine allowed w
          { w.put i { w.nodes i with call := .idle } with acked := index :: w.acked }
  -- `raft.Apply` fails because the node no longer leads the term of its proposal.
  | lost {w : World ι} {index since : Nat} (i : ι)
      (at_ : (w.nodes i).call = .proposed index since)
      (deposed : ¬ ((w.nodes i).leader = true ∧ (w.nodes i).term = since))
      : Step engine allowed w (w.put i { w.nodes i with call := .idle })
  -- The barrier fails, the statement fails or changes nothing, or the proposal is refused.
  | giveUp {w : World ι} (i : ι) (pending : ∀ index since, (w.nodes i).call ≠ .proposed index since)
      : Step engine allowed w (w.put i { w.nodes i with call := .idle })

inductive Reached (engine : Engine) (allowed : Node → Prop) : World ι → Prop
  | new : Reached engine allowed .new
  | step {w w' : World ι} (before : Reached engine allowed w) (next : Step engine allowed w w')
      : Reached engine allowed w'

/-- Every write-set in the log was staged on the state it is applied to. -/
def StagedInPlace (engine : Engine) (w : World ι) : Prop :=
  ∀ index entry, w.log[index]? = some entry → entry.base = stateAt engine w.writeSets index

/-- The proposal is processed in the term in which the call passed its check or its barrier. -/
def Uninterrupted (n : Node) : Prop :=
  match n.call with
  | .staged since _ _ => n.term = since
  | _ => True

variable {engine : Engine}

def tip (engine : Engine) (log : List Entry) : Store :=
  stateAt engine (log.map Entry.writeSet) log.length

/-- What holds of a call: the terms it remembers, and where its node stands if it still leads the
newest term and that is the term the call relies on.
-/
def CallLaw (engine : Engine) (newest : Nat) (log : List Entry) (n : Node) : Prop :=
  match n.call with
  | .idle | .checked =>
    n.leader = true → n.term = newest → n.barrierTerm = n.term → n.applied = log.length
  | .fencing t => n.barrierTerm < t ∧ t ≤ n.term
  | .barrier t since upTo => n.barrierTerm < t ∧ t ≤ since ∧ since ≤ n.term ∧ since ≤ newest
      ∧ (n.leader = true → n.term = newest → n.term = since → upTo = log.length)
  | .ready since => n.barrierTerm ≤ since ∧ since ≤ n.term ∧ since ≤ newest
      ∧ (n.leader = true → n.term = newest → n.term = since → n.applied = log.length)
  | .staged since _ base => n.barrierTerm ≤ since ∧ since ≤ n.term ∧ since ≤ newest
      ∧ (n.leader = true → n.term = newest → n.term = since
        → n.applied = log.length ∧ base = tip engine log)
  | .proposed index since => n.barrierTerm ≤ since ∧ since ≤ n.term ∧ since ≤ newest
      ∧ (n.leader = true → n.term = newest → n.term = since → log.length = index + 1)

structure NodeLaw (engine : Engine) (newest : Nat) (log : List Entry) (n : Node) : Prop where
  leads : n.leader = true → n.term ≤ newest
  confirmed : n.barrierTerm ≤ n.term ∧ n.barrierTerm ≤ newest
  behind : n.applied ≤ log.length
  call : CallLaw engine newest log n

variable {n : Node}

/-- A node that does not lead the newest term keeps its law when the log grows or a newer term is
won elsewhere.
-/
theorem NodeLaw.elsewhere {newest newer : Nat} {log longer : List Entry}
    (law : NodeLaw engine newest log n) (grown : log.length ≤ longer.length) (later : newest ≤ newer)
    (elsewhere : ¬ (n.leader = true ∧ n.term = newer))
    : NodeLaw engine newer longer n := by
  obtain ⟨leads, confirmed, behind, call⟩ := law
  refine ⟨fun leader => (leads leader).trans later, ⟨confirmed.1, confirmed.2.trans later⟩,
    behind.trans grown, ?_⟩
  unfold CallLaw at call ⊢
  cases state : n.call <;> rw [state] at call <;> dsimp only at call ⊢
  case idle => exact fun leader same => absurd ⟨leader, same⟩ elsewhere
  case checked => exact fun leader same => absurd ⟨leader, same⟩ elsewhere
  case fencing => exact call
  all_goals grind

/-- A node that stops leading keeps its law, whatever newer term it sees. -/
theorem NodeLaw.follow {newest t : Nat} {log : List Entry} (law : NodeLaw engine newest log n)
    (later : n.term ≤ t)
    : NodeLaw engine newest log { n with term := t, leader := false } := by
  obtain ⟨leads, confirmed, behind, call⟩ := law
  refine ⟨by simp, ⟨confirmed.1.trans later, confirmed.2⟩, behind, ?_⟩
  unfold CallLaw at call ⊢
  cases state : n.call <;> rw [state] at call <;> dsimp only at call ⊢ <;> grind

/-- The laws of the nodes, at most one leader a term, and what is to be shown of the log. -/
structure WorldLaw (engine : Engine) (w : World ι) : Prop where
  nodes : ∀ i, NodeLaw engine w.term w.log (w.nodes i)
  single : ∀ i j, (w.nodes i).leader = true → (w.nodes j).leader = true
    → (w.nodes i).term = (w.nodes j).term → i = j
  staged : StagedInPlace engine w

omit [DecidableEq ι] in
theorem WorldLaw.new : WorldLaw engine (.new : World ι) where
  nodes := fun _ => ⟨by simp [World.new], by simp [World.new], by simp [World.new],
    by simp [CallLaw, World.new]⟩
  single := by simp [World.new]
  staged := by simp [StagedInPlace, World.new]

/-- A step of one node that wins no election and appends nothing. -/
theorem WorldLaw.put {w : World ι} (law : WorldLaw engine w) (i : ι)
    (here : NodeLaw engine w.term w.log n)
    (leader : n.leader = true → (w.nodes i).leader = true ∧ (w.nodes i).term = n.term)
    : WorldLaw engine (w.put i n) := by
  refine ⟨fun j => ?_, fun j k => ?_, law.staged⟩
  · by_cases same : j = i
    · subst same
      simpa [World.put] using here
    · simpa [World.put, same] using law.nodes j
  · have unique := law.single
    simp only [World.put, Function.update_apply]
    grind

/-- A state of a call with which the node's law is kept, the rest of the node unchanged. -/
theorem WorldLaw.call {w : World ι} (law : WorldLaw engine w) (i : ι)
    (same : n.term = (w.nodes i).term ∧ n.leader = (w.nodes i).leader ∧ n.applied = (w.nodes i).applied)
    (confirmed : n.barrierTerm ≤ n.term ∧ n.barrierTerm ≤ w.term) (call : CallLaw engine w.term w.log n)
    : WorldLaw engine (w.put i n) := by
  obtain ⟨term, leader, applied⟩ := same
  obtain ⟨leads, -, behind, -⟩ := law.nodes i
  refine law.put i ⟨?_, confirmed, ?_, call⟩ (fun leads => ⟨leader ▸ leads, term.symm⟩)
  · rw [term, leader]
    exact leads
  · rw [applied]
    exact behind

/-- A call that ends without a proposal leaves the node as a call finds it.
Witness: a call relies on no older term than the one last confirmed, so if that is the current
term the call knew that everything was applied.
-/
theorem CallLaw.idle {newest : Nat} {log : List Entry} (law : CallLaw engine newest log n)
    (pending : ∀ index since, n.call ≠ .proposed index since)
    : CallLaw engine newest log { n with call := .idle } := by
  unfold CallLaw at law ⊢
  cases state : n.call <;> rw [state] at law <;> dsimp only at law ⊢
  case proposed index since => exact absurd state (pending index since)
  all_goals grind

/-- Entries added at the end do not change the states before them. -/
theorem stateAt_append {log more : List Bytes} {j : Nat} (inside : j ≤ log.length)
    : stateAt engine (log ++ more) j = stateAt engine log j := by
  rw [stateAt, stateAt, take_append_of_le_length inside]

omit [DecidableEq ι] in
/-- An entry staged on the state of the whole log may be appended. -/
theorem StagedInPlace.snoc {w : World ι} {writeSet : Bytes} (staged : StagedInPlace engine w)
    : ∀ index entry, (w.log ++ [Entry.mk writeSet (tip engine w.log)])[index]? = some entry
      → entry.base
        = stateAt engine ((w.log ++ [Entry.mk writeSet (tip engine w.log)]).map Entry.writeSet) index := by
  intro index entry found
  rw [map_append]
  rcases Nat.lt_trichotomy index w.log.length with inside | last | outside
  · rw [getElem?_append_left inside] at found
    rw [stateAt_append (by simpa using inside.le)]
    exact staged index entry found
  · subst last
    rw [getElem?_append_right le_rfl, Nat.sub_self] at found
    obtain rfl := Option.some.inj found
    rw [stateAt_append (by simp)]
    rfl
  · rw [getElem?_append_right outside.le, getElem?_singleton] at found
    rw [if_neg (by omega)] at found
    simp at found

/-- What a step of an uninterrupted call does to the laws. -/
theorem WorldLaw.step {w w' : World ι} (law : WorldLaw engine w)
    (next : Step engine Uninterrupted w w')
    : WorldLaw engine w' := by
  cases next with
  | raise i t newer =>
    exact law.put i ((law.nodes i).follow newer.le) (by simp)
  | stepDown i =>
    exact law.put i ((law.nodes i).follow le_rfl) (by simp)
  | elect i newest =>
    refine ⟨fun j => ?_, fun j k => ?_, law.staged⟩
    · by_cases same : j = i
      · subst same
        obtain ⟨leads, confirmed, behind, call⟩ := law.nodes j
        simp only [World.put, Function.update_self]
        refine ⟨fun _ => le_rfl, ⟨confirmed.1, confirmed.1⟩, behind, ?_⟩
        unfold CallLaw at call ⊢
        cases state : (w.nodes j).call <;> rw [state] at call <;> dsimp only at call ⊢ <;> grind
      · have leads := (law.nodes j).leads
        simp only [World.put, Function.update_of_ne same]
        refine (law.nodes j).elsewhere le_rfl newest.le ?_
        grind
    · have unique := law.single
      have leads := fun j => (law.nodes j).leads
      simp only [World.put, Function.update_apply]
      grind
  | apply i behind =>
    obtain ⟨leads, confirmed, -, call⟩ := law.nodes i
    refine law.put i ⟨leads, confirmed, behind, ?_⟩ (fun leader => ⟨leader, rfl⟩)
    unfold CallLaw at call ⊢
    cases state : (w.nodes i).call <;> rw [state] at call <;> dsimp only at call ⊢ <;> grind
  | check i free leader =>
    have known := (law.nodes i).call
    simp only [CallLaw, free] at known
    exact law.call i ⟨rfl, rfl, rfl⟩ (law.nodes i).confirmed known
  | skipBarrier i at_ confirmed =>
    have known := (law.nodes i).call
    have bound := (law.nodes i).confirmed
    simp only [CallLaw, at_] at known
    refine law.call i ⟨rfl, rfl, rfl⟩ bound ?_
    simp only [CallLaw]
    grind
  | needBarrier i at_ unconfirmed =>
    have bound := (law.nodes i).confirmed
    refine law.call i ⟨rfl, rfl, rfl⟩ bound ?_
    simp only [CallLaw]
    omega
  | barrier i at_ leader =>
    have known := (law.nodes i).call
    have leads := (law.nodes i).leads leader
    simp only [CallLaw, at_] at known
    refine law.call i ⟨rfl, rfl, rfl⟩ (law.nodes i).confirmed ?_
    simp only [CallLaw]
    grind
  | passed i at_ leader same caught =>
    have known := (law.nodes i).call
    have behind := (law.nodes i).behind
    simp only [CallLaw, at_] at known
    refine law.call i ⟨rfl, rfl, rfl⟩ ?_ ?_
    · dsimp only
      omega
    · simp only [CallLaw]
      grind
  | stage i statement at_ ran =>
    have known := (law.nodes i).call
    simp only [CallLaw, at_] at known
    refine law.call i ⟨rfl, rfl, rfl⟩ (law.nodes i).confirmed ?_
    simp only [CallLaw]
    refine ⟨known.1, known.2.1, known.2.2.1, fun leader newest same => ?_⟩
    have all := known.2.2.2 leader newest same
    exact ⟨all, by rw [World.store, all]; rfl⟩
  | append i at_ leader newest permitted =>
    have known := (law.nodes i).call
    simp only [CallLaw, at_] at known
    simp only [Uninterrupted, at_] at permitted
    obtain ⟨all, rfl⟩ := known.2.2.2 leader newest permitted
    refine ⟨fun j => ?_, ?_, law.staged.snoc⟩
    · by_cases same : j = i
      · subst same
        obtain ⟨leads, confirmed, behind, -⟩ := law.nodes j
        simp only [World.put, Function.update_self]
        refine ⟨leads, confirmed, by simp only [length_append]; omega, ?_⟩
        simp only [CallLaw, length_append, length_cons, length_nil]
        grind
      · have unique := law.single j i
        simp only [World.put, Function.update_of_ne same]
        refine (law.nodes j).elsewhere (by simp) le_rfl ?_
        grind
    · intro j k
      have unique := law.single j k
      simp only [World.put, Function.update_apply]
      grind
  | acknowledge i at_ applied =>
    have known := (law.nodes i).call
    have behind := (law.nodes i).behind
    simp only [CallLaw, at_] at known
    have ended : WorldLaw engine (w.put i { w.nodes i with call := .idle }) := by
      refine law.call i ⟨rfl, rfl, rfl⟩ (law.nodes i).confirmed ?_
      simp only [CallLaw]
      grind
    exact ⟨ended.nodes, ended.single, ended.staged⟩
  | lost i at_ deposed =>
    have known := (law.nodes i).call
    simp only [CallLaw, at_] at known
    refine law.call i ⟨rfl, rfl, rfl⟩ (law.nodes i).confirmed ?_
    simp only [CallLaw]
    grind
  | giveUp i pending =>
    exact law.call i ⟨rfl, rfl, rfl⟩ (law.nodes i).confirmed ((law.nodes i).call.idle pending)

theorem worldLaw_of_reached {w : World ι} (reached : Reached engine Uninterrupted w) : WorldLaw engine w := by
  induction reached with
  | new => exact .new
  | step before next ih => exact ih.step next

/-- If every proposal is processed in the term its call relied on, every write-set in the log was
staged on the state it is applied to.
-/
theorem stagedInPlace_of_uninterrupted {w : World ι} (reached : Reached engine Uninterrupted w)
    : StagedInPlace engine w := by
  have law : WorldLaw engine w := by
    induction reached with
    | new => exact .new
    | step before next ih => exact ih.step next
  exact law.staged

def setting (v : UInt8) : Stage Unit := .set [1] [v] (fun _ => .done (.ok ()))

theorem stageWrite_setting (v : UInt8) (s : Store)
    : (stageWrite lenientEngine (setting v) s).1 = .ok (some (), some (encode [.set [1] [v]])) := by
  rfl

/-- Node `i` wins term `t` and brings a call past its barrier and through staging. -/
theorem reached_staged {allowed : Node → Prop} {w : World Bool}
    (before : Reached lenientEngine allowed w) (i : Bool) (v : UInt8) (t : Nat)
    (idle : (w.nodes i).call = .idle) (newer : (w.nodes i).term < t) (newest : w.term < t)
    (unconfirmed : t ≠ (w.nodes i).barrierTerm) (caught : w.log.length ≤ (w.nodes i).applied)
    : Reached lenientEngine allowed
        { w.put i { w.nodes i with
            term := t
            leader := true
            barrierTerm := t
            call := .staged t (encode [.set [1] [v]]) (w.store lenientEngine i) } with
          term := t } := by
  have at_ {w : World Bool} {n : Node} : ((w.put i n).nodes i).call = n.call :=
    congrArg Node.call (w.put_self i n)
  have r1 := before.step (.raise i t newer)
  have r2 := r1.step (.elect i (by simpa [World.put] using newest))
  have r3 := r2.step (.check i (by simpa [World.put] using idle) (by simp [World.put]))
  have r4 := r3.step (.needBarrier i at_ (by simpa [World.put] using unconfirmed))
  have r5 := r4.step (.barrier i at_ (by simp [World.put]))
  have r6 := r5.step (.passed i at_ (by simp [World.put]) (by simp [World.put])
    (by simpa [World.put] using caught))
  have r7 := r6.step (.stage i (setting v) at_ (stageWrite_setting v _))
  simpa [World.put, World.store, World.writeSets] using r7

/-- A call that was staged in the first term, and proposed when its node leads again two terms
later, follows another node's acknowledged write it has not seen.
-/
theorem not_stagedInPlace_of_reached
    : ∃ w : World Bool, Reached lenientEngine (fun _ => True) w ∧ 0 ∈ w.acked
      ∧ ¬ StagedInPlace lenientEngine w := by
  have start : Reached lenientEngine (fun _ => True) (.new : World Bool) := .new
  have r1 := reached_staged start false 1 1 rfl (by decide) (by decide) (by decide) le_rfl
  have r2 := reached_staged r1 true 2 2 rfl (by decide) (by decide) (by decide) le_rfl
  have r3 := r2.step (.append true rfl rfl rfl trivial)
  have r4 := r3.step (.apply true (by decide))
  have r5 := r4.step (.acknowledge true rfl (by decide))
  have r6 := r5.step (.raise false 3 (by decide))
  have r7 := r6.step (.elect false (by decide))
  have r8 := r7.step (.append false rfl rfl rfl trivial)
  refine ⟨_, r8, List.mem_cons_self, fun staged => ?_⟩
  have here := congrArg (fun s => s.get [1]) (staged 1 _ rfl)
  exact absurd here (by decide)

theorem stagedInPlace_founded
    : ∃ w : World Bool, Reached lenientEngine Uninterrupted w ∧ w.log.length = 1
      ∧ StagedInPlace lenientEngine w := by
  have start : Reached lenientEngine Uninterrupted (.new : World Bool) := .new
  have r1 := reached_staged start false 1 1 rfl (by decide) (by decide) (by decide) le_rfl
  have r2 := r1.step (.append false rfl rfl rfl rfl)
  exact ⟨_, r2, rfl, stagedInPlace_of_uninterrupted r2⟩

/-- The entry holds the writes of a function over `storage.Txn` that was staged on its base. -/
def Entry.Records (engine : Engine) (e : Entry) (p : Txn Unit) : Prop :=
  e.writeSet = (Stage.ofTxn p).writeSet engine e.base ∧ Sized ((Stage.ofTxn p).recorded engine e.base).ops

/-- One machine that runs the functions one after another. -/
def runAll (code : List (Txn Unit)) : Store := code.foldl (fun s p => (p.run s).2) initial

/-- However elections, barriers and proposals interleave, the store of every node is the one that a single
machine has after it ran the statements that the node has applied, one after another in the order of the log.
-/
theorem store_eq_runAll (lenient : ∀ before o, engine.refusal before o = none)
    (commits : ∀ ops, engine.commitRefusal ops = none) {w : World ι} (reached : Reached engine Uninterrupted w)
    {code : List (Txn Unit)} (records : Forall₂ (Entry.Records engine) w.log code) (i : ι)
    : w.store engine i = runAll (code.take (w.nodes i).applied) := by
  have law := worldLaw_of_reached reached
  have states (k : Nat) (within : k ≤ w.log.length) : stateAt engine w.writeSets k = runAll (code.take k) := by
    induction k with
    | zero => rfl
    | succ k ih =>
      have entry : k < w.log.length := within
      have function : k < code.length := records.length_eq ▸ entry
      obtain ⟨writeSet, sized⟩ := records.get entry function
      have staged : (w.log.get ⟨k, entry⟩).base = _ := law.staged k _ (getElem?_eq_getElem entry)
      have applied : stateAt engine w.writeSets (k + 1) = fsmApply engine (stateAt engine w.writeSets k)
          (w.log.get ⟨k, entry⟩).writeSet := by
        simp [stateAt, replay, World.writeSets, take_add_one, getElem?_eq_getElem entry]
      rw [applied, writeSet, ← staged, fsmApply_ofTxn lenient commits _ _ sized, staged, ih entry.le]
      rw [runAll, runAll, take_add_one, getElem?_eq_getElem function, Option.toList_some, foldl_append]
      rfl
  exact states _ (law.nodes i).behind

theorem store_eq_runAll_setting
    : ∃ w : World Bool, (w.nodes false).applied = 1
      ∧ w.store lenientEngine false = runAll [Program.write [1] [1]] := by
  have start : Reached lenientEngine Uninterrupted (.new : World Bool) := .new
  have r1 := reached_staged start false 1 1 rfl (by decide) (by decide) (by decide) le_rfl
  have r2 := r1.step (.append false rfl rfl rfl rfl)
  have r3 := r2.step (.apply false (by decide))
  exact ⟨_, rfl, store_eq_runAll (fun _ _ => rfl) (fun _ => rfl) r3 (.cons ⟨rfl, by decide, by decide⟩ .nil) false⟩

end Intreccio.Cluster
