import Intreccio.Graph.Operations

/-! Runs of transactions from the empty store.
As long as the counters have not wrapped, every created record gets an unused ID, and so the
laws hold in every state reached; one creation more reuses the first ID and breaks them.
-/

namespace Intreccio.Graph

open Kv Kv.Program Words Codec Catalog List

variable {cov : Coverage} {s s' : Store}

/-- The committed operations, each with what it handed back. -/
abbrev History := List (Op × Outcome)

def steps (body : Script) (outcomes : List Outcome) : History := (body.map Prod.fst).zip outcomes

variable {history : History}

/-- Each operation the transaction gets to is allowed where it is called. -/
def Guarded (allowed : Store → Op → Prop) : Store → Script → Prop
  | _, [] => True
  | s, (op, o) :: rest =>
    allowed s op ∧ ∀ r mid, (op.run o).run s = (.ok r, mid) → Guarded allowed mid rest

/-- The states reached from the empty store, with the history of the committed operations.
A transaction commits all its operations, or is discarded at the first error. A state in the
middle of a transaction is one that committing its operations so far would reach.
-/
inductive Reached (allowed : Store → Op → Prop) : History → Store → Prop
  | empty : Reached allowed [] .empty
  | commit {history : History} {outcomes : List Outcome} {s s' : Store} {body : Script}
      (before : Reached allowed history s) (guarded : Guarded allowed s body)
      (ran : (script body).run s = (.ok outcomes, s'))
      : Reached allowed (history ++ steps body outcomes) s'
  | discard {history : History} {s s' : Store} {body : Script} {e : Err}
      (before : Reached allowed history s) (ran : (script body).run s = (.error e, s'))
      : Reached allowed history s

def nodesMade (history : History) : List UInt64 := history.flatMap (fun step => step.2.nodes)

def edgesMade (history : History) : List UInt64 := history.flatMap (fun step => step.2.edges)

theorem nodesMade_snoc (history : History) (op : Op) (r : Outcome)
    : nodesMade (history ++ [(op, r)]) = nodesMade history ++ r.nodes := by
  simp [nodesMade]

theorem edgesMade_snoc (history : History) (op : Op) (r : Outcome)
    : edgesMade (history ++ [(op, r)]) = edgesMade history ++ r.edges := by
  simp [edgesMade]

/-- The counters stand where the history put them, every record has an ID that was handed out,
and the dictionaries are in order.
-/
structure Tallied (history : History) (s : Store) : Prop where
  nodeIDs : Issued 0 (nodesMade history) (counterAt s .node)
  edgeIDs : Issued 0 (edgesMade history) (counterAt s .edge)
  nodes : ∀ n, cell s (.node n) ≠ none → n ∈ nodesMade history
  edges : ∀ e, cell s (.edge e) ≠ none → e ∈ edgesMade history
  ordered : ∀ d, Dictionary s d

theorem Tallied.empty : Tallied [] .empty :=
  ⟨rfl, rfl, by simp, by simp, Dictionary.empty⟩

theorem Tallied.step {op : Op} {r : Outcome} (tallied : Tallied history s)
    (advance : Advance r.nodes r.edges s s')
    : Tallied (history ++ [(op, r)]) s' := by
  refine ⟨nodesMade_snoc history op r ▸ tallied.nodeIDs.append advance.nodeIDs,
    edgesMade_snoc history op r ▸ tallied.edgeIDs.append advance.edgeIDs, fun n present => ?_,
    fun e present => ?_, advance.ordered tallied.ordered⟩
  · rw [nodesMade_snoc]
    rcases advance.nodes n present with before | made
    · exact mem_append_left _ (tallied.nodes n before)
    · exact mem_append_right _ made
  · rw [edgesMade_snoc]
    rcases advance.edges e present with before | made
    · exact mem_append_left _ (tallied.edges e before)
    · exact mem_append_right _ made

/-- At most `2 ^ 64` nodes and as many edges were created. -/
structure Few (history : History) : Prop where
  nodes : (nodesMade history).length ≤ 2 ^ 64
  edges : (edgesMade history).length ≤ 2 ^ 64

theorem Few.before {more : History} (few : Few (history ++ more)) : Few history := by
  obtain ⟨nodes, edges⟩ := few
  simp only [nodesMade, edgesMade, flatMap_append, length_append] at nodes edges
  exact ⟨by rw [nodesMade]; omega, by rw [edgesMade]; omega⟩

/-- The next ID is unused while the counters have not gone round.
Witness: the IDs handed out so far and the next one are at most `2 ^ 64`, so all different.
-/
theorem Tallied.fresh {op : Op} {r : Outcome} (tallied : Tallied history s)
    (advance : Advance r.nodes r.edges s s') (few : Few (history ++ [(op, r)]))
    : Fresh s r := by
  have after : Tallied (history ++ [(op, r)]) s' := tallied.step advance
  refine ⟨?_, ?_⟩
  · rintro n rfl
    have distinct := after.nodeIDs.nodup few.nodes
    rw [nodesMade_snoc] at distinct
    by_contra present
    exact (nodup_append.mp distinct).2.2 n (tallied.nodes n present) n (by simp [Outcome.nodes]) rfl
  · rintro e rfl
    have distinct := after.edgeIDs.nodup few.edges
    rw [edgesMade_snoc] at distinct
    by_contra present
    exact (nodup_append.mp distinct).2.2 e (tallied.edges e present) e (by simp [Outcome.edges]) rfl

/-- The rule of a transaction: what moves over each operation with the rest still to come. -/
theorem exec_script {rule : ScanRule Bytes Bytes} {P : Script → History → Store → Prop} {body : Script}
    {h : History} {outcomes : List Outcome} (holds : P body h s)
    (step : ∀ op o rest history s r s', P ((op, o) :: rest) history s
      → (op.run o).Exec rule s (.ok r) s' → P rest (history ++ [(op, r)]) s')
    (ran : (script body).Exec rule s (.ok outcomes) s')
    : P [] (h ++ steps body outcomes) s' := by
  induction body generalizing h outcomes s with
  | nil =>
    obtain ⟨rfl, rfl⟩ := exec_ret.mp ran
    simpa [steps] using holds
  | cons entry rest ih =>
    obtain ⟨op, o⟩ := entry
    obtain ⟨r, others, mid, rfl, first, looped⟩ := exec_script_cons.mp ran
    have together : h ++ steps ((op, o) :: rest) (r :: others)
        = (h ++ [(op, r)]) ++ steps rest others := by simp [steps]
    rw [together]
    exact ih (step op o rest h s r mid holds first) looped

/-- What holds of a history and its store is kept by an allowed operation on a store in order. -/
def Preserved (cov : Coverage) (allowed : Store → Op → Prop) (P : History → Store → Prop) : Prop :=
  ∀ history s op o r s', Tallied history s → Consistent cov s → allowed s op → Fresh s r
    → (op.run o).Exec .exact s (.ok r) s' → P history s → P (history ++ [(op, r)]) s'

variable {allowed : Store → Op → Prop}

section

variable {P : History → Store → Prop}
  (step : ∀ history s op o r s', allowed s op → (op.run o).Exec .exact s (.ok r) s' → P history s
    → P (history ++ [(op, r)]) s')

include step

/-- A transaction keeps whatever each operation keeps. -/
theorem script_induction {body : Script} {outcomes : List Outcome} (holds : P history s)
    (guarded : Guarded allowed s body) (ran : (script body).Exec .exact s (.ok outcomes) s')
    : P (history ++ steps body outcomes) s' := by
  refine (exec_script (P := fun rest history s => P history s ∧ Guarded allowed s rest)
    ⟨holds, guarded⟩ ?_ ran).1
  rintro op o rest history s r mid ⟨held, guarded⟩ first
  exact ⟨step history s op o r mid guarded.1 first held, guarded.2 r mid (exec_exact_iff.mp first)⟩

theorem Reached.induction (reached : Reached allowed history s) (initial : P [] .empty) : P history s := by
  induction reached with
  | empty => exact initial
  | commit before guarded ran ih => exact script_induction step ih guarded (exec_exact_iff.mpr ran)
  | discard before ran ih => exact ih

end

/-- In every state reached with at most `2 ^ 64` creations of each kind the laws hold, and with
them whatever holds of the empty store and is preserved.
-/
theorem Reached.rule {P : History → Store → Prop} (reached : Reached allowed history s)
    (respects : ∀ s op, allowed s op → op.Respects cov s) (preserved : Preserved cov allowed P)
    (initial : P [] .empty) (few : Few history)
    : Tallied history s ∧ Consistent cov s ∧ P history s := by
  refine Reached.induction
    (P := fun history s => Few history → Tallied history s ∧ Consistent cov s ∧ P history s)
    (fun history s op o r s' permitted ran ih few => ?_) reached (fun _ => ⟨.empty, .empty cov, initial⟩) few
  obtain ⟨tallied, consistent, holds⟩ := ih few.before
  have advance := advance_run ran
  have fresh := tallied.fresh advance few
  exact ⟨tallied.step advance, consistent_run consistent (respects s op permitted) fresh ran,
    preserved history s op o r s' tallied consistent permitted fresh ran holds⟩

theorem Reached.sound (reached : Reached allowed history s)
    (respects : ∀ s op, allowed s op → op.Respects cov s) (few : Few history)
    : Tallied history s ∧ Consistent cov s :=
  have ⟨tallied, consistent, _⟩ := reached.rule (P := fun _ _ => True) respects
    (fun _ _ _ _ _ _ _ _ _ _ _ _ => trivial) trivial few
  ⟨tallied, consistent⟩

def steady : MapOrder := ⟨fun _ i => i⟩

def noProps : GoMap := ⟨.empty, by simp [ValidProps, OrderedMap.empty]⟩

def bareNode : Op := .createNode [] noProps

/-- Creating a bare node takes the next ID, writes an empty record under it, whatever was
there, and touches nothing else.
-/
theorem run_bareNode {c : UInt64} (counter : cell s (.counter .node) = some (uint64Bytes c))
    : ∃ s', (script [(bareNode, steady)]).run s = (.ok [.node (c + 1)], s')
      ∧ cell s' (.counter .node) = some (uint64Bytes (c + 1))
      ∧ nodeAt s' (c + 1) = some ⟨[], .empty⟩ ∧ (WellKeyed s → WellKeyed s')
      ∧ ∀ κ, (∀ n, κ ≠ .node n) → κ ≠ .counter .node → cell s' κ = cell s κ := by
  have bare : ∃ b, encodeNode ⟨[], .empty⟩ = .ok b
      ∧ decodeNode b = .ok ⟨([] : List UInt32).insertionSort (· ≤ ·), recProps .empty⟩ :=
    decodeNode_encodeNode nodup_nil (fun k v found => by simp at found)
  obtain ⟨b, encoded, decoded⟩ := bare
  have counted : nextNodeID.Exec .exact s (.ok (c + 1))
      (s.set (Key.counter .node).bytes (uint64Bytes (c + 1))) := by
    have held : s.get (Key.counter .node).bytes = some (uint64Bytes c) := counter
    rw [nextNodeID, show kindNode = Counter.node.kind from rfl]
    simp only [nextCounter, bind_eq, pure_eq, exec_lookup_bind, Key.counterKey_eq, held,
      decodeU64_uint64Bytes, ofExcept_ok_bind, exec_write_bind, exec_ret, and_self]
  have written : (putNodeRecord (c + 1) ⟨[], .empty⟩).Exec .exact
      (s.set (Key.counter .node).bytes (uint64Bytes (c + 1))) (.ok ())
      ((s.set (Key.counter .node).bytes (uint64Bytes (c + 1))).set (Key.node (c + 1)).bytes b) := by
    simp only [putNodeRecord, encoded, bind_eq, ofExcept_ok_bind, exec_write, Key.nodeKey_eq]
  -- With no labels and no properties nothing is interned and nothing indexed.
  have created : (bareNode.run steady).Exec .exact s (.ok (.node (c + 1)))
      ((s.set (Key.counter .node).bytes (uint64Bytes (c + 1))).set (Key.node (c + 1)).bytes b) := by
    have body : createNode steady [] .empty
        = nextNodeID.bind (fun id => (putNodeRecord id ⟨[], .empty⟩).bind (fun _ => ret id)) := rfl
    refine exec_bind_ok.mpr ⟨c + 1, _, ?_, exec_ret.mpr ⟨rfl, rfl⟩⟩
    rw [noProps, body]
    exact exec_bind_ok.mpr ⟨c + 1, _, counted, exec_bind_ok.mpr ⟨(), _, written,
      exec_ret.mpr ⟨rfl, rfl⟩⟩⟩
  refine ⟨_, exec_exact_iff.mp (exec_script_cons.mpr ⟨_, [], _, rfl, created,
    exec_ret.mpr ⟨rfl, rfl⟩⟩), by simp, ?_, fun keyed => (keyed.set _ _).set _ _,
    fun κ differs other => ?_⟩
  · rw [nodeAt, cell_set, if_pos rfl, Option.bind_some, decoded]
    rfl
  · rw [cell_set, if_neg (differs _), cell_set, if_neg other]

theorem Reached.bareNodes (permits : ∀ s, allowed s bareNode) (reached : Reached allowed history s)
    {c : UInt64} (counter : cell s (.counter .node) = some (uint64Bytes c)) (count : Nat)
    : ∃ history' s', Reached allowed history' s'
      ∧ cell s' (.counter .node) = some (uint64Bytes (c + UInt64.ofNat count))
      ∧ (0 < count → nodeAt s' (c + UInt64.ofNat count) = some ⟨[], .empty⟩)
      ∧ (WellKeyed s → WellKeyed s')
      ∧ ∀ κ, (∀ n, κ ≠ .node n) → κ ≠ .counter .node → cell s' κ = cell s κ := by
  induction count with
  | zero => exact ⟨history, s, reached, by simpa using counter, nofun, id, fun _ _ _ => rfl⟩
  | succ count ih =>
    obtain ⟨before, t, there, counted, _, keyed, same⟩ := ih
    obtain ⟨t', ran, next, record, keyed', framed⟩ := run_bareNode counted
    have guarded : Guarded allowed t [(bareNode, steady)] := ⟨permits t, fun _ _ _ => trivial⟩
    have place : c + UInt64.ofNat (count + 1) = c + UInt64.ofNat count + 1 := by
      rw [UInt64.ofNat_add, ← UInt64.add_assoc]
      rfl
    rw [place]
    exact ⟨_, t', there.commit guarded ran, next, fun _ => record, keyed' ∘ keyed,
      fun κ differs other => (framed κ differs other).trans (same κ differs other)⟩

/-- After `2 ^ 64` further creations the first node is overwritten by an empty one, and its
derived keys stay.
-/
theorem Reached.wrapped (permits : ∀ s, allowed s bareNode) (reached : Reached allowed history s)
    (counter : cell s (.counter .node) = some (uint64Bytes 1))
    : ∃ history' s', Reached allowed history' s' ∧ nodeAt s' 1 = some ⟨[], .empty⟩
      ∧ (WellKeyed s → WellKeyed s')
      ∧ ∀ κ, (∀ n, κ ≠ .node n) → κ ≠ .counter .node → cell s' κ = cell s κ := by
  obtain ⟨before, t, there, _, record, rest⟩ := reached.bareNodes permits counter (2 ^ 64)
  have again : (1 + UInt64.ofNat (2 ^ 64) : UInt64) = 1 := by decide
  rw [again] at record
  exact ⟨before, t, there, record (by decide), rest⟩

def oneProp (key : Str) (value : GoValue) : GoMap :=
  ⟨.set .empty key value.val, by
    intro e member
    obtain rfl : e = (key, value.val) := by
      simpa [OrderedMap.set, OrderedMap.empty, OrderedMap.insertEntry] using member
    exact value.property⟩

/-- A first transaction: a constraint on the first label and the first property key, and a
node that has both.
-/
def founding : Script :=
  [(.addUniqueConstraint 1 1 [], steady),
    (.createNode [lit "A"] (oneProp (lit "k") ⟨.int 5, rfl⟩), steady)]

def founded : Store := ((script founding).run .empty).2

theorem reached_founded (guarded : Guarded allowed .empty founding)
    : Reached allowed (steps founding [.done, .node 1]) founded := by
  have ran : (script founding).run .empty = (.ok [.done, .node 1], founded) := rfl
  exact .commit .empty guarded ran

theorem few_founded : Few (steps founding [.done, .node 1]) := ⟨by decide, by decide⟩

end Intreccio.Graph
