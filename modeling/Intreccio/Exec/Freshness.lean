import Intreccio.Exec.Projection
import Intreccio.Graph.EqualityLookups

/-! SET and REMOVE on a row (`applySetClauses` and `removeOp.next` in `internal/exec/write.go`).
A row carries copies of node records. An item writes one node and then renews the copy of the variable that
it names. Any other place of the row that holds the same node, such as another variable or a list, keeps its
old copy.
-/

namespace Intreccio.Exec

open Kv Words Graph Ast
open Kv.Program

/-- An item of a SET or of a REMOVE. -/
inductive Item where
  | set (clause : SetClause)
  | remove (clause : RemoveClause)

/-- Carry out an item on a row. -/
def Item.apply (ctx : Context) (b : Row) (item : Item) (c : Choices) : Txn Row :=
  match item with
  | .set clause => applySetClause ctx b clause c
  | .remove clause => applyRemoveClause b clause c

/-- The variable whose node an item writes. -/
def Item.target : Item → Option Str
  | .set (.setProperty (.var name) _ _) => some name
  | .set (.setProperty _ _ _) => none
  | .set (.setLabels name _) => some name
  | .set (.setMap name _ _) => some name
  | .remove (.removeProperty (.var name) _) => some name
  | .remove (.removeProperty _ _) => none
  | .remove (.removeLabels name _) => some name

/-- The items of consecutive clauses, one after the other. -/
def applyItems (ctx : Context) : List Item → Row → Choices → Txn Row
  | [], b, _ => return b
  | item :: rest, b, c => do
      let b ← item.apply ctx b c.now
      applyItems ctx rest b c.later

/-- The items of a SET are carried out in their order. -/
theorem applySetClauses_eq (ctx : Context) (clauses : List SetClause) (b : Row) (c : Choices)
    : applySetClauses ctx clauses b c = applyItems ctx (clauses.map .set) b c := by
  induction clauses generalizing b c with
  | nil => rfl
  | cons clause rest ih => exact congrArg _ (funext fun b => ih b _)

/-- The items of a REMOVE are carried out in their order. -/
theorem applyRemoveClauses_eq (ctx : Context) (clauses : List RemoveClause) (b : Row) (c : Choices)
    : applyRemoveClauses clauses b c = applyItems ctx (clauses.map .remove) b c := by
  induction clauses generalizing b c with
  | nil => rfl
  | cons clause rest ih => exact congrArg _ (funext fun b => ih b _)

/-- The record that the store has for a node. -/
def storedNode (s : Store) (id : UInt64) : Option (NodeOf Val) := (answer s (getNode id)).map nodeOf

mutual
/-- The nodes that a value holds, at any depth; a property of a node is never a node. -/
def nodesIn : Val → List (NodeOf Val)
  | .node n => [n]
  | .list items => nodesInAll items
  | .map entries => nodesInEntries entries
  | .path nodes _ => nodes
  | _ => []
termination_by structural v => v

/-- The nodes that some values hold. -/
def nodesInAll : List Val → List (NodeOf Val)
  | [] => []
  | v :: rest => nodesIn v ++ nodesInAll rest
termination_by structural l => l

/-- The nodes that the values of a map hold. -/
def nodesInEntries : List (Str × Val) → List (NodeOf Val)
  | [] => []
  | (_, v) :: rest => nodesIn v ++ nodesInEntries rest
termination_by structural l => l
end

/-- The nodes of a row are those of the store, and so are the properties and the labels that are read from
them by any expression.
-/
structure Fresh (ctx : Context) (s : Store) (b : Row) : Prop where
  records : ∀ x, ∀ n ∈ nodesIn (cell b x), storedNode s n.id = some n
  properties
    : ∀ x, ∀ n ∈ nodesIn (cell b x), ∀ e key c, (eval ctx e b (c.sub 0)).read s = .ok (.node n)
      → ∃ m, storedNode s n.id = some m
        ∧ (eval ctx (.propertyAccess e key) b c).read s = (propValue m.props key).read s
  labels
    : ∀ x, ∀ n ∈ nodesIn (cell b x), ∀ e names c, (eval ctx e b (c.sub 0)).read s = .ok (.node n)
      → ∃ m, storedNode s n.id = some m
        ∧ (eval ctx (.labelsPredicate e names) b c).read s = (testLabels (.node m) names).read s

/-- The row is fresh after every item, so that the next one finds it fresh, and in the end. -/
def StaysFresh (ctx : Context) : List Item → Choices → Row → Store → Prop
  | [], _, b, s => Fresh ctx s b
  | item :: rest, c, b, s => ∀ b' s', (item.apply ctx b c.now).run s = (.ok b', s')
      → Fresh ctx s' b' ∧ StaysFresh ctx rest c.later b' s'

/-- The node that an item writes is in no other place of the row than the variable that the item names. -/
def Alone (items : List Item) (b : Row) : Prop :=
  ∀ item ∈ items, ∀ x n, item.target = some x → cell b x = .node n
    → ∀ y, y ≠ x → ∀ m ∈ nodesIn (cell b y), m.id ≠ n.id

/-- The nodes of a row are those of the store, apart from the variable that the first item renews. -/
def FreshElsewhere (items : List Item) (s : Store) (b : Row) : Prop :=
  ∀ x, items.head?.bind Item.target ≠ some x → ∀ n ∈ nodesIn (cell b x), storedNode s n.id = some n

section

variable {ctx : Context} {s s' : Store} {b b' : Row} {item : Item} {c : Choices}

variable {n : NodeOf Val}

/-- Setting a variable changes its cell only. -/
theorem cell_set_row (b : Row) (x y : Str) (v : Val) : cell (b.set x v) y = if y = x then v else cell b y := by
  rw [cell, OrderedMap.get_set]
  split <;> rfl

/-- Where the records of a row are those of the store, so is what is read from them. -/
theorem fresh_of_records (records : ∀ x, ∀ n ∈ nodesIn (cell b x), storedNode s n.id = some n)
    : Fresh ctx s b where
  records := records
  properties := by
    intro x n held e key c value
    exact ⟨n, records x n held, read_bind_of_ok (reads_eval _ _ _ _) value⟩
  labels := by
    intro x n held e names c value
    exact ⟨n, records x n held, read_bind_of_ok (reads_eval _ _ _ _) value⟩

/-- A stored node is what its record is decoded to. -/
theorem storedNode_eq (s : Store) (id : UInt64)
    : storedNode s id = (Graph.nodeAt s id).map (fun r => nodeOf ⟨r, id⟩) := by
  rw [storedNode, answer, getNode, bind_eq, read_bind_of_ok (reads_lookup _) (read_lookup _), Graph.nodeAt,
    Intreccio.cell, ← Key.nodeKey_eq]
  cases s.get (Codec.nodeKey id) with
  | none => rfl
  | some held =>
    rw [Option.bind_some]
    cases decoded : Codec.decodeNode held <;>
      simp [decoded, bind_eq, pure_eq, Except.toOption, Except.mapError, Except.bind]

/-- Only the record of a node decides what is stored for it. -/
theorem storedNode_congr {id : UInt64} (same : Intreccio.cell s' (.node id) = Intreccio.cell s (.node id))
    : storedNode s' id = storedNode s id := by
  rw [storedNode_eq, storedNode_eq, nodeAt_congr same]

/-- A stored node has the ID that it is stored for. -/
theorem id_of_storedNode {id : UInt64} (stored : storedNode s id = some n) : n.id = id := by
  rw [storedNode_eq] at stored
  obtain ⟨r, _, rfl⟩ := Option.map_eq_some_iff.mp stored
  rfl

/-- What a write of one node and the renewal of a variable leave. -/
structure Renewed (x : Str) (n : NodeOf Val) (b : Row) (s : Store) (b' : Row) (s' : Store) : Prop where
  row : ∃ m, storedNode s' n.id = some m ∧ b' = b.set x (.node m)
  others : ∀ id, id ≠ n.id → storedNode s' id = storedNode s id

/-- A write of one node, and then a read of it into the variable. -/
theorem renewed_of_within {x : Str} {p : Txn Unit} (within : Within (NodeOrDict n.id) p)
    (ran : (p.bind fun _ => refresh b x n.id).run s = (.ok b', s'))
    : Renewed x n b s b' s' := by
  obtain ⟨_, mid, wrote, ran⟩ := run_bind_ok.mp ran
  obtain ⟨node, after, got, same⟩ := run_bind_ok.mp ran
  cases same
  obtain ⟨read, rfl⟩ := read_of_run (reads_getNode _) got
  have framed := within.framed (exec_exact_iff.mpr wrote)
  refine ⟨⟨nodeOf node, ?_, rfl⟩, fun id other => storedNode_congr (framed.frame _ ?_)⟩
  · rw [storedNode, answer_of_read read]
    rfl
  · rintro (own | dict)
    · exact other own
    · exact dict

/-- A variable with a node holds that node. -/
theorem node_of_nodeAt {x : Str} (found : nodeAt b x = some n) : cell b x = .node n := by
  unfold nodeAt at found
  cases held : cell b x <;> simp [held, asNode] at found
  rw [found]

/-- SET with a map writes its node only. -/
theorem within_applySetMap {name : Str} (id : UInt64) (replace : Bool) (c : Choices) (v : Val)
    : Within (NodeOrDict id) (applySetMap name id replace c v) := by
  cases v with
  | null =>
    cases replace
    · exact within_ret _
    · exact within_setNodeProperties _ _ _ _
  | map entries => exact within_setNodeProperties _ _ _ _
  | _ => exact within_fail _

/-- An item that succeeds writes the node of its variable and renews that variable. -/
theorem Item.apply_ok (ran : (item.apply ctx b c).run s = (.ok b', s'))
    : ∃ x n, item.target = some x ∧ cell b x = .node n ∧ Renewed x n b s b' s' := by
  cases item with
  | set clause =>
    cases clause with
    | setProperty target key value =>
      cases target with
      | var name =>
        simp only [Item.apply, applySetClause] at ran
        split at ran
        next => cases ran
        next n found =>
          obtain ⟨v, mid, got, rest⟩ := run_bind_ok.mp ran
          obtain ⟨_, rfl⟩ := read_of_run (reads_eval _ _ _ _) got
          exact ⟨name, n, rfl, node_of_nodeAt found, renewed_of_within (within_setProperty _ _ _) rest⟩
      | _ => cases ran
    | setLabels name labels =>
      simp only [Item.apply, applySetClause] at ran
      split at ran
      next => cases ran
      next n found =>
        exact ⟨name, n, rfl, node_of_nodeAt found, renewed_of_within (within_addLabels _ _ _) ran⟩
    | setMap name value replace =>
      simp only [Item.apply, applySetClause] at ran
      split at ran
      next => cases ran
      next n found =>
        obtain ⟨v, mid, got, rest⟩ := run_bind_ok.mp ran
        obtain ⟨_, rfl⟩ := read_of_run (reads_eval _ _ _ _) got
        exact ⟨name, n, rfl, node_of_nodeAt found, renewed_of_within (within_applySetMap _ _ _ _) rest⟩
  | remove clause =>
    cases clause with
    | removeProperty target key =>
      cases target with
      | var name =>
        simp only [Item.apply, applyRemoveClause] at ran
        split at ran
        next => cases ran
        next n found =>
          exact ⟨name, n, rfl, node_of_nodeAt found, renewed_of_within (within_removeProperty _ _).node ran⟩
      | _ => cases ran
    | removeLabels name labels =>
      simp only [Item.apply, applyRemoveClause] at ran
      split at ran
      next => cases ran
      next n found =>
        exact ⟨name, n, rfl, node_of_nodeAt found, renewed_of_within (within_removeLabels _ _ _).node ran⟩

/-- An item leaves a fresh row when its node is in no other place; the copy in its variable need not be fresh
before, since it is renewed.
-/
theorem fresh_apply {rest : List Item} (alone : Alone (item :: rest) b)
    (elsewhere : FreshElsewhere (item :: rest) s b) (ran : (item.apply ctx b c).run s = (.ok b', s'))
    : Fresh ctx s' b' := by
  obtain ⟨x, n, target, holds, ⟨m, stored, rfl⟩, others⟩ := item.apply_ok ran
  refine fresh_of_records fun y m' held => ?_
  rw [cell_set_row] at held
  split at held
  next =>
    obtain rfl := List.mem_singleton.mp held
    rwa [id_of_storedNode stored]
  next other =>
    have apart := alone item List.mem_cons_self x n target holds y other m' held
    rw [others _ apart]
    exact elsewhere y (fun first => other (Option.some.inj (first.symm.trans target))) m' held

/-- An item keeps the nodes of a row where they are, so those of the later items stay alone. -/
theorem Alone.apply {rest : List Item} (alone : Alone (item :: rest) b)
    (ran : (item.apply ctx b c).run s = (.ok b', s'))
    : Alone rest b' := by
  obtain ⟨x, n, target, holds, ⟨m, stored, rfl⟩, others⟩ := item.apply_ok ran
  have same := id_of_storedNode stored
  intro later listed x' n' target' holds' y other m' held
  rw [cell_set_row] at holds' held
  have before {k : NodeOf Val} (own : cell b x' = .node k) {k' : NodeOf Val} (there : k' ∈ nodesIn (cell b y))
      : k'.id ≠ k.id :=
    alone later (List.mem_cons_of_mem _ listed) x' k target' own y other k' there
  split at holds'
  next here =>
    obtain rfl := Val.node.inj holds'
    rw [if_neg (here ▸ other)] at held
    exact same ▸ before (here ▸ holds) held
  next =>
    split at held
    next there =>
      obtain rfl := List.mem_singleton.mp held
      refine same ▸ before holds' ?_
      rw [there, holds]
      exact List.mem_singleton.mpr rfl
    next => exact before holds' held

/-- Items on nodes that are in no other place keep a row fresh, by induction on the items. -/
theorem staysFresh_of_alone {items : List Item} (alone : Alone items b) (elsewhere : FreshElsewhere items s b)
    : StaysFresh ctx items c b s := by
  induction items generalizing c b s with
  | nil => exact fresh_of_records fun x => elsewhere x nofun
  | cons item rest ih =>
    intro b' s' ran
    have fresh := fresh_apply alone elsewhere ran
    exact ⟨fresh, ih (alone.apply ran) fun x _ => fresh.records x⟩

/-- After the last item the row is fresh. -/
theorem StaysFresh.applyItems {items : List Item} (stays : StaysFresh ctx items c b s)
    (ran : (Exec.applyItems ctx items b c).run s = (.ok b', s'))
    : Fresh ctx s' b' := by
  induction items generalizing c b s with
  | nil =>
    cases ran
    exact stays
  | cons item rest ih =>
    obtain ⟨mid, s₁, first, later⟩ := run_bind_ok.mp ran
    exact ih (stays mid s₁ first).2 later

/-- The node of each item is in no other place of the row, and the other nodes of the row are those of the store:
then the row is fresh after each item, and after a SET or a REMOVE with these items.
-/
theorem row_fresh_of_alone (ctx : Context) (items : List Item) (c : Choices) (b : Row) (s : Store)
    (alone : Alone items b) (elsewhere : FreshElsewhere items s b)
    : StaysFresh ctx items c b s
      ∧ (∀ clauses b' s', items = clauses.map .set → (applySetClauses ctx clauses b c).run s = (.ok b', s')
        → Fresh ctx s' b')
      ∧ ∀ clauses b' s', items = clauses.map .remove → (applyRemoveClauses clauses b c).run s = (.ok b', s')
        → Fresh ctx s' b' := by
  have stays : StaysFresh ctx items c b s := staysFresh_of_alone alone elsewhere
  refine ⟨stays, ?_, ?_⟩
  · rintro clauses b' s' rfl ran
    exact stays.applyItems (applySetClauses_eq ctx clauses b c ▸ ran)
  · rintro clauses b' s' rfl ran
    exact stays.applyItems (applyRemoveClauses_eq ctx clauses b c ▸ ran)

end

/-- A store with one node. -/
def oneNode : Store := ((createNode (Choices.ordered).toMapOrder [] .empty).run .empty).2

/-- The row with the node in `n`, and in a list `l` too when it is shared. -/
def rowOf (shared : Bool) : Row :=
  let row := OrderedMap.empty.set (lit "n") (.node ⟨1, [], []⟩)
  if shared then row.set (lit "l") (.list [.node ⟨1, [], []⟩]) else row

/-- `SET n.x = 1`. -/
def setX : Item := .set (.setProperty (.var (lit "n")) (lit "x") (.literal (.int 1)))

/-- All nodes of the row are the one of the store. -/
theorem fresh_rowOf (shared : Bool) : Fresh .bare oneNode (rowOf shared) := by
  have stored : storedNode oneNode 1 = some ⟨1, [], []⟩ := rfl
  have only (x : Str) (n : NodeOf Val) (held : n ∈ nodesIn (cell (rowOf shared) x)) : n = ⟨1, [], []⟩ := by
    cases shared
    · rw [rowOf, if_neg Bool.false_ne_true, cell_set_row] at held
      split at held
      · exact List.mem_singleton.mp held
      · cases held
    · rw [rowOf, if_pos rfl, cell_set_row] at held
      split at held
      · exact List.mem_singleton.mp held
      · rw [cell_set_row] at held
        split at held
        · exact List.mem_singleton.mp held
        · cases held
  refine fresh_of_records fun x n held => ?_
  rw [only x n held]
  exact stored

/-- `SET n.x = 1, n.x = 1` on a row that holds the node in `n` only. -/
theorem row_fresh_twice
    : StaysFresh .bare [setX, setX] .ordered (rowOf false) oneNode
      ∧ (∀ clauses b' s', [setX, setX] = clauses.map .set
        → (applySetClauses .bare clauses (rowOf false) .ordered).run oneNode = (.ok b', s') → Fresh .bare s' b')
      ∧ ∀ clauses b' s', [setX, setX] = clauses.map .remove
        → (applyRemoveClauses clauses (rowOf false) .ordered).run oneNode = (.ok b', s')
        → Fresh .bare s' b' := by
  refine row_fresh_of_alone .bare [setX, setX] .ordered (rowOf false) oneNode ?_ ?_
  · intro item listed x n target holds y other m held
    obtain rfl : item = setX := by simpa using listed
    cases target
    rw [rowOf, if_neg Bool.false_ne_true, cell_set_row, if_neg other] at held
    cases held
  · intro x _
    exact (fresh_rowOf false).records x

/-- A fresh row need not stay fresh: after `SET n.x = 1` the list `l` holds the node without the property. -/
theorem not_row_fresh_shared
    : ¬ ∀ (ctx : Context) (items : List Item) (c : Choices) (b : Row) (s : Store), Fresh ctx s b
      → StaysFresh ctx items c b s := by
  intro always
  have stays := always .bare [setX] .ordered (rowOf true) oneNode (fresh_rowOf true)
  have ran : (setX.apply .bare (rowOf true) Choices.ordered.now).run oneNode
      = (.ok ((rowOf true).set (lit "n") (.node ⟨1, [], [(1, .int 1)]⟩)),
        ((setX.apply .bare (rowOf true) Choices.ordered.now).run oneNode).2) := rfl
  have old := (stays _ _ ran).1.records (lit "l") ⟨1, [], []⟩ (List.mem_singleton.mpr rfl)
  have new : storedNode ((setX.apply .bare (rowOf true) Choices.ordered.now).run oneNode).2 1
      = some ⟨1, [], [(1, .int 1)]⟩ := rfl
  exact absurd (old.symm.trans new) (by simp)

end Intreccio.Exec
