import Intreccio.Exec.Reading

/-! The rows of a read-only plan as lists, without iterators.
A read that fails stands for no rows: what a plan denotes only matters when it runs without an
error. An operator that evaluates an expression for each row draws on a supply of choices row
by row, so its list function takes the supply along.
-/

namespace Intreccio.Exec

open Kv Words Graph Ast Plan

/-- What a read gives on a store, if it succeeds. -/
def answer {α : Type} (s : Store) (p : Txn α) : Option α := (p.read s).toOption

theorem answer_of_read {α : Type} {s : Store} {p : Txn α} {a : α} (ran : p.read s = .ok a)
    : answer s p = some a := by
  rw [answer, ran]
  rfl

/-- The concatenation of what `f` makes of each row, with the choices of that row. -/
def along (f : Row → Choices → List Row) : List Row → Choices → List Row
  | [], _ => []
  | b :: rest, c => f b c.now ++ along f rest c.later

/-- The first row of each key that was not seen before; all rows unless `distinct`. -/
def distinctFrom (distinct : Bool) (key : Row → Str) : List Str → List Row → List Row
  | _, [] => []
  | seen, b :: rest =>
    if distinct && key b ∈ seen then distinctFrom distinct key seen rest
    else b :: distinctFrom distinct key (key b :: seen) rest

/-- The nodes of a stretch of an index, up to the first value that stops it. -/
def segmentNodes (s : Store) (stop : Scalar → Bool) : List (Bytes × Bytes) → List Node
  | [] => []
  | (k, _) :: rest =>
    match (parsePropKey k).toOption with
    | none => segmentNodes s stop rest
    | some (v, id) =>
      if stop v then [] else (answer s (getNode id)).toList ++ segmentNodes s stop rest

def cursorNodes (s : Store) : NodeCursor → List Node
  | .all rest => rest.filterMap (fun e => (nodeOfEntry e.1 e.2).toOption)
  | .byLabel rest => rest.filterMap (fun e => answer s (nodeOfLabelKey e.1))
  | .ranges segs => segs.flatMap (fun seg => segmentNodes s seg.stop seg.rest)

def sourceNodes (s : Store) : NodeSource → List Node
  | .cursor cur => cursorNodes s cur
  | .ids rest => rest.filterMap (fun id => answer s (getNode id))

def nodeRow (var : Str) (n : Node) : Row := OrderedMap.empty.set var (ofNode n)

def relRows (s : Store) (x : RelByProperty) (ids : List UInt64) : List Row :=
  ids.flatMap (fun id => (answer s (relSeekRows x id)).getD [])

def listingRows (s : Store) (what : Listing) : List Row := (answer s what.rows).getD []

/-- All nodes, in the order of their IDs. -/
def allNodeRows (s : Store) (var : Str) : List Row :=
  (cursorNodes s (.all (s.select (under Codec.nodePrefix)))).map (nodeRow var)

/-- The nodes with a label, in the order of their IDs; none when the label is not known. -/
def labelRows (s : Store) (var label : Str) : List Row :=
  match (answer s (Catalog.lookupLabel label)).join with
  | none => []
  | some id => (cursorNodes s (.byLabel (s.select (under (Codec.labelPrefix id))))).map (nodeRow var)

def Source.rows (s : Store) : Source → List Row
  | .unit done => if done then [] else [.empty]
  | .nodeScan var nodes => (sourceNodes s nodes).map (nodeRow var)
  | .relSeek x ids rows => rows ++ relRows s x ids
  | .schema _ _ => []
  | .listing what rows => rows.getD (listingRows s what)

section

variable (ctx : Context) (s : Store)

def pendingRows (pending : List Delayed) : List Row :=
  pending.filterMap (fun read => (answer s read).join)

def fanRows (kind : FanOut) (b : Row) (c : Choices) : List Row :=
  pendingRows s ((answer s (kind.spread ctx b c)).getD [])

def keepIf (pred : Expr) (b : Row) (c : Choices) : List Row :=
  if truthy ((answer s (eval ctx pred b c)).getD .null) then [b] else []

def projected (items : List ProjItem) (b : Row) (c : Choices) : List Row :=
  (answer s (projectRow ctx items b c)).toList

def groupAll (groupKeys : List ProjItem) (specs : List AggSpec)
    : List Group → List Row → Choices → List Group
  | groups, [], _ => groups
  | groups, b :: rest, c =>
    groupAll groupKeys specs ((answer s (addRow ctx groupKeys specs groups b c.now)).getD groups)
      rest c.later

/-- The rows of an aggregation, from the groups it has, or from its start. -/
def aggregateRows (groupKeys aggs : List ProjItem) (groups : Option (List Group)) (rows : List Row)
    (c : Choices) : List Row :=
  match parseAggFuncs ctx aggs with
  | .error _ => []
  | .ok specs =>
    (groupAll ctx s groupKeys specs (groups.getD (seedGroups groupKeys specs)) rows c).map
      (groupRow groupKeys aggs specs)

def sorted (keys : List SortKey) (rows : List Row) (c : Choices) : List Row :=
  (answer s (sortRows ctx keys rows c)).getD []

/-- The rows that an operator makes of the rows it still has to read. -/
def Unary.rows (u : Unary) (l : List Row) : List Row :=
  match u with
  | .fan kind pending ch => pendingRows s pending ++ along (fanRows ctx s kind) l ch
  | .filter pred ch => along (keepIf ctx s pred) l ch
  | .project items distinct seen ch =>
    distinctFrom distinct (rowKey · items) seen (along (projected ctx s items) l ch)
  | .aggregate groupKeys aggs groups out ch => out.getD (aggregateRows ctx s groupKeys aggs groups l ch)
  | .sort keys rows loaded ch => if loaded then rows else sorted ctx s keys (rows ++ l) ch
  | .skip left => l.drop left
  | .limit left => l.take left
  | .rowWrite _ _ => []

/-- The rows of an outer row: those of the inner plan, or with `newVars` the row itself with
nulls when there are none.
-/
def joined (newVars : Option (List Str)) (b : Row) (inner : List Row) : List Row :=
  match newVars with
  | some vars => if inner.isEmpty then [nullExtend b vars] else inner
  | none => inner

def product (left right : List Row) : List Row := left.flatMap (fun b => right.map (overlay b))

def countOn (e : Expr) (c : Choices) : Nat := (answer s (evalCount ctx e c)).getD 0

def expandKind (x : Expand) : FanOut :=
  let e : ExpandOp := ⟨x, (answer s (lookupTypes x.types)).getD []⟩
  if x.varLength then .varExpand e else .expand e

mutual
/-- What a read-only plan denotes, inside an apply with the current row. -/
def denote (p : Plan.Op) (arg : Option Row) (c : Choices) : List Row :=
  match p with
  | .nil => [.empty]
  | .argument => arg.toList
  | .allNodesScan var => allNodeRows s var
  | .nodeByLabelScan var label => labelRows s var label
  | .nodeByProperty var label key value =>
    let ids := (answer s (propertyScanIDs ctx label key value (arg.getD .empty) c)).getD []
    (sourceNodes s (.ids ids)).map (nodeRow var)
  | .nodeByPropertyRange x =>
    let source := (answer s (propertyRangeScan ctx x (arg.getD .empty) c)).getD (.ids [])
    (sourceNodes s source).map (nodeRow x.var)
  | .relByProperty x => relRows s x ((answer s (relSeekIDs ctx x (arg.getD .empty) c)).getD [])
  | .expand input x => along (fanRows ctx s (expandKind s x)) (denote input arg (c.sub 0)) (c.sub 2)
  | .shortestPath input x =>
    match answer s (pathSpec x) with
    | none => []
    | some spec => along (fanRows ctx s (.shortestPath x spec)) (denote input arg (c.sub 0)) (c.sub 2)
  | .filter input pred => along (keepIf ctx s pred) (denote input arg (c.sub 0)) (c.sub 2)
  | .project input items distinct =>
    let rows := along (projected ctx s items) (denote input arg (c.sub 0)) (c.sub 2)
    distinctFrom distinct (rowKey · items) [] rows
  | .aggregate input groupKeys aggs _ =>
    aggregateRows ctx s groupKeys aggs none (denote input arg (c.sub 0)) (c.sub 2)
  | .sort input keys => sorted ctx s keys (denote input arg (c.sub 0)) (c.sub 2)
  | .skip input count => (denote input arg (c.sub 0)).drop (countOn ctx s count (c.sub 2))
  | .limit input count => (denote input arg (c.sub 0)).take (countOn ctx s count (c.sub 2))
  | .cartesianProduct left right => product (denote left arg (c.sub 0)) (denote right arg (c.sub 1))
  | .unwind input expr asName =>
    along (fanRows ctx s (.unwind expr asName)) (denote input arg (c.sub 0)) (c.sub 2)
  | .outerApply outer inner newVars =>
    along (fun b c => joined (some newVars) b (denote inner (some b) c)) (denote outer arg (c.sub 0))
      (c.sub 2)
  | .apply outer inner =>
    along (fun b c => joined none b (denote inner (some b) c)) (denote outer arg (c.sub 0)) (c.sub 2)
  | .union parts columns all => distinctFrom (!all) (unionKey · columns) [] (denoteAll parts arg (c.sub 0))
  | .showIndexes => listingRows s .showIndexes
  | .showConstraints => listingRows s .showConstraints
  -- plans that write denote no list
  | .create _ _ | .merge _ _ | .setItems _ _ | .remove _ _ | .delete _ _ _ => []
  | .createIndex _ | .dropIndex _ _ | .createConstraint _ _ _ | .dropConstraint _ _ => []
termination_by structural p

def denoteAll (l : List Plan.Op) (arg : Option Row) (c : Choices) : List Row :=
  match l with
  | [] => []
  | p :: rest => denote p arg c.now ++ denoteAll rest arg c.later
termination_by structural l
end

mutual
def remaining (m : Machine) (a : Argument) : List Row :=
  match m with
  | .argument => if a.done then [] else [a.row]
  | .source src => src.rows s
  | .unary input u => u.rows ctx s (remaining input a)
  | .cartesian left right rightRows loaded cur =>
    let rights := if loaded then rightRows else rightRows ++ remaining right a
    let here := cur.elim [] (fun (b, rows) => (if loaded then rows else rights).map (overlay b))
    here ++ product (remaining left a) rights
  | .apply outer plan newVars cur valid inner arg emitted pendingEmpty ch =>
    let here :=
      if pendingEmpty then [nullExtend cur (newVars.getD [])]
      else if valid then joined (if emitted then none else newVars) cur (remaining inner arg)
      else []
    here ++ along (fun b c => joined newVars b (denote ctx s plan (some b) c)) (remaining outer a) ch
  | .union parts columns dedup seen => distinctFrom dedup (unionKey · columns) seen (remainingAll parts a)
termination_by structural m

def remainingAll (l : List Machine) (a : Argument) : List Row :=
  match l with
  | [] => []
  | m :: rest => remaining m a ++ remainingAll rest a
termination_by structural l
end

end

/-- The row with one column. -/
def rowX (v : Val) : Row := OrderedMap.empty.set (lit "x") v

end Intreccio.Exec
