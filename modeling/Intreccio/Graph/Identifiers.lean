import Intreccio.Graph.Refinement
import Mathlib.Data.Fintype.Card

/-! The IDs of names, nodes and relationships over whole runs (`internal/catalog/catalog.go`).
Names may be interned on their own, as `CREATE INDEX` does, beside the operations of the graph layer.
Every step only extends the dictionaries and moves the counters by the IDs it hands out, so an ID is
not used again before its counter has gone round.
-/

namespace Intreccio.Graph

open Kv Kv.Program Words Codec Catalog List

/-- A step of a transaction: an operation under its map orders, or the interning of a name. -/
inductive Act where
  | call (op : Op) (order : MapOrder)
  | intern (d : Dict) (name : Str)

/-- The step as a function of the source. -/
def Act.run : Act → Txn Outcome
  | call op order => op.run order
  | intern d name => return (fun _ => .done) (← internDict d.fwdTag d.kind name)

/-- The body of a transaction: its steps in turn, up to the first error. -/
def transact : List Act → Txn (List Outcome)
  | [] => return []
  | act :: rest => do
      let outcome ← act.run
      let more ← transact rest
      return outcome :: more

/-- From one store to another by transactions that commit or are discarded, with what the committed
steps handed back.
-/
inductive Passes (initial : Store) : List Outcome → Store → Prop
  | start : Passes initial [] initial
  | commit {made outcomes : List Outcome} {s s' : Store} {body : List Act} (before : Passes initial made s)
      (ran : (transact body).run s = (.ok outcomes, s'))
      : Passes initial (made ++ outcomes) s'
  | discard {made : List Outcome} {s s' : Store} {body : List Act} {e : Err} (before : Passes initial made s)
      (ran : (transact body).run s = (.error e, s'))
      : Passes initial made s

variable {initial s s' : Store} {made outcomes : List Outcome}

/-- A step moves the counters by the IDs it hands out. -/
theorem advance_act {act : Act} {r : Outcome} (ran : act.run.Exec .exact s (.ok r) s')
    : Advance r.nodes r.edges s s' := by
  cases act with
  | call op order => exact advance_run ran
  | intern d name =>
    obtain ⟨id, rfl, interned⟩ := exec_made.mp ran
    exact (interned_internDict interned).1.advance

/-- So does a transaction. By induction on its steps. -/
theorem advance_transact {body : List Act} (ran : (transact body).Exec .exact s (.ok outcomes) s')
    : Advance (outcomes.flatMap Outcome.nodes) (outcomes.flatMap Outcome.edges) s s' := by
  induction body generalizing s outcomes with
  | nil =>
    obtain ⟨rfl, rfl⟩ := exec_ret.mp ran
    exact .refl _
  | cons act rest ih =>
    simp only [transact, bind_eq, pure_eq, exec_bind_ok, exec_ret] at ran
    obtain ⟨outcome, mid, first, more, after, looped, rfl, rfl⟩ := ran
    exact (advance_act first).trans (ih looped)

/-- So does a run. By induction on the transactions, of which the discarded ones leave no trace. -/
theorem Passes.advance (passes : Passes initial made s)
    : Advance (made.flatMap Outcome.nodes) (made.flatMap Outcome.edges) initial s := by
  induction passes with
  | start => exact .refl initial
  | commit before ran ih =>
    simpa only [flatMap_append] using ih.trans (advance_transact (exec_exact_iff.mpr ran))
  | discard before ran ih => exact ih

/-- A name has the ID: the forward key says so. -/
def Named (s : Store) (d : Dict) (name : Str) (id : UInt32) : Prop :=
  (lookupDict d.fwdTag name).run s = (.ok (some id), s)

theorem Dictionary.named_iff {d : Dict} {name : Str} {id : UInt32} (dict : Dictionary s d)
    : Named s d name id ↔ idOf s d name = some id := by
  rw [Named, run_lookupDict dict name]
  simp

/-- The reverse key of an ID gives the name that has it, and that one only. -/
theorem Dictionary.revName_iff {d : Dict} {name : Str} {id : UInt32} (dict : Dictionary s d)
    : (revName d.kind id).run s = (.ok name, s) ↔ idOf s d name = some id := by
  refine ⟨fun back => dict.idOf_iff.mpr ?_, run_revName dict⟩
  simp only [revName, bind_eq, pure_eq, throw_eq, run_lookup_bind, Key.reverseKey_eq] at back
  rw [cell]
  cases held : s.get (Key.reverse d id).bytes with
  | none =>
    rw [held] at back
    cases congrArg Prod.fst back
  | some other =>
    rw [held] at back
    exact congrArg some (Except.ok.inj (congrArg Prod.fst back))

/-- A label is interned, and two nodes are created with a deletion between them. -/
def renewing : List Act :=
  [.intern .label (lit "A"), .call bareNode steady, .call (.deleteNode 1) steady, .call bareNode steady]

/-- There are only so many IDs. -/
theorem length_le_of_nodup {ids : List UInt64} (nodup : ids.Nodup) : ids.length ≤ 2 ^ 64 := by
  have distinct : (ids.map UInt64.toFin).Nodup := nodup.map (fun _ _ same => UInt64.toFin_inj.mp same)
  simpa using List.Nodup.length_le_card distinct

/-- Any number of bare nodes can be created. By induction, one transaction each. -/
theorem Passes.bareNodes {c : UInt64} (passes : Passes initial made s)
    (counter : cell s (.counter .node) = some (uint64Bytes c)) (count : Nat)
    : ∃ made' s' c', Passes initial made' s'
      ∧ (made'.flatMap Outcome.nodes).length = (made.flatMap Outcome.nodes).length + count
      ∧ cell s' (.counter .node) = some (uint64Bytes c') := by
  induction count with
  | zero => exact ⟨made, s, c, passes, rfl, counter⟩
  | succ count ih =>
    obtain ⟨made, s, c', passes, length, counter⟩ := ih
    obtain ⟨s', ran, next, -⟩ := run_bareNode counter
    have created : (transact [.call bareNode steady]).run s = (.ok [.node (c' + 1)], s') := ran
    refine ⟨_, s', c' + 1, passes.commit created, ?_, next⟩
    simp [Outcome.nodes, length, Nat.add_assoc]

end Intreccio.Graph
