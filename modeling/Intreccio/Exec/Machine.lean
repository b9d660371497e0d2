import Intreccio.Foundation.Pull
import Intreccio.Foundation.StableSort
import Intreccio.Exec.Aggregates
import Intreccio.Exec.Traversal

/-! The operators as machines (`internal/exec/exec.go` and the operator files beside it).
An operator of the source is an iterator whose `next` loops until it has a row. A turn of a
machine is one round of these loops: it yields a row, reports the end, or goes round again.
Each operator that evaluates expressions has choices of its own and moves along them.
-/

namespace Intreccio.Exec

open Kv Words Graph Ast Plan

/-- The column that a sort key may name, empty for none. -/
def columnKey : Expr → Str
  | .var name => name
  | .propertyAccess (.var name) key => name ++ lit "." ++ key
  | _ => []

/-- A sort key of a row: the column it names, or its value; a failed evaluation is null. -/
def sortValue (ctx : Context) (b : Row) (e : Expr) (c : Choices) : Txn Val :=
  match if columnKey e = [] then none else b.get (columnKey e) with
  | some v => return v
  | none => (eval ctx e b c).handle (fun _ => return .null)

/-- Keys that cannot be compared decide nothing. -/
def sortLess (ctx : Context) (x y : Row) : List SortKey → Choices → Txn Bool
  | [], _ => return false
  | k :: rest, c => do
      let vx ← sortValue ctx x k.expr (c.now.sub 0)
      let vy ← sortValue ctx y k.expr (c.now.sub 1)
      match compareValues vx vy with
      | some .lt => return !k.desc
      | some .gt => return k.desc
      | _ => sortLess ctx x y rest c.later

def sortRows (ctx : Context) (keys : List SortKey) (rows : List Row) (c : Choices) : Txn (List Row) :=
  let less (x y : Row) : StateT Choices Txn Bool := fun c => do
    let r ← sortLess ctx x y keys c.now
    return (r, c.later)
  (StableSort.sliceStable less rows).run' c

/-- Operators that make several rows of each row they read. -/
inductive FanOut where
  | expand (e : ExpandOp)
  | varExpand (e : ExpandOp)
  | shortestPath (x : ShortestPath) (spec : PathSpec)
  | unwind (expr : Expr) (asName : Str)
  | merge (m : Merge)

def FanOut.spread (ctx : Context) (kind : FanOut) (b : Row) (c : Choices) : Txn (List Delayed) :=
  match kind with
  | .expand e => e.spread b
  | .varExpand e => e.spreadTrails b
  | .shortestPath x spec => spreadPaths x spec b
  | .unwind expr asName => spreadList ctx expr asName b c
  | .merge m => do
      let rows ← mergeRun ctx m b c
      return rows.map (fun b => return some b)

/-- Operators that write for each row and pass it on. -/
inductive RowWrite where
  | create (parts : List PatternPart)
  | setItems (items : List SetClause)
  | remove (items : List RemoveClause)
  | delete (exprs : List Expr) (detach : Bool)

def RowWrite.run (ctx : Context) (w : RowWrite) (b : Row) (c : Choices) : Txn Row :=
  match w with
  | .create parts => createParts ctx parts b c
  | .setItems items => applySetClauses ctx items b c
  | .remove items => applyRemoveClauses items b c
  | .delete exprs detach => do
      deleteAll ctx detach b exprs c
      return b

def projectRow (ctx : Context) (items : List ProjItem) (b : Row) (c : Choices) : Txn Row := do
  let vs ← evalItems ctx b items c
  return setColumns .empty items vs

def rowKey (b : Row) (items : List ProjItem) : Str :=
  sprint (.list (items.map (fun it => cell b it.column)))

/-- An operator with one input, and its state. An aggregation has no groups before it starts and
no rows before its input ends.
-/
inductive Unary where
  | fan (kind : FanOut) (pending : List Delayed) (ch : Choices)
  | filter (pred : Expr) (ch : Choices)
  | project (items : List ProjItem) (distinct : Bool) (seen : List Str) (ch : Choices)
  | aggregate (groupKeys aggs : List ProjItem) (groups : Option (List Group))
      (out : Option (List Row)) (ch : Choices)
  | sort (keys : List SortKey) (rows : List Row) (loaded : Bool) (ch : Choices)
  | skip (left : Nat)
  | limit (left : Nat)
  | rowWrite (w : RowWrite) (ch : Choices)

/-- What an operator does without its input, if it has something to do. -/
def Unary.act (ctx : Context) : Unary → Option (Txn (Turn Row × Unary))
  | .fan kind (read :: pending) ch => some (do
      match ← read with
      | some b => return (.row b, .fan kind pending ch)
      | none => return (.again, .fan kind pending ch))
  | .aggregate groupKeys aggs none none ch => some (do
      let specs ← Program.ofExcept (parseAggFuncs ctx aggs)
      return (.again, .aggregate groupKeys aggs (some (seedGroups groupKeys specs)) none ch))
  | .aggregate groupKeys aggs groups (some []) ch =>
    some (return (.done, .aggregate groupKeys aggs groups (some []) ch))
  | .aggregate groupKeys aggs groups (some (b :: out)) ch =>
    some (return (.row b, .aggregate groupKeys aggs groups (some out) ch))
  | .sort keys [] true ch => some (return (.done, .sort keys [] true ch))
  | .sort keys (b :: rows) true ch => some (return (.row b, .sort keys rows true ch))
  | .limit 0 => some (return (.done, .limit 0))
  | _ => none

/-- What an operator does with the next row of its input, or with its end. -/
def Unary.feed (ctx : Context) : Unary → Option Row → Txn (Turn Row × Unary)
  | .fan kind _ ch, some b => do
      let pending ← kind.spread ctx b ch.now
      return (.again, .fan kind pending ch.later)
  | .filter pred ch, some b => do
      let v ← eval ctx pred b ch.now
      return (if truthy v then .row b else .again, .filter pred ch.later)
  | .project items distinct seen ch, some b => do
      let out ← projectRow ctx items b ch.now
      if distinct && rowKey out items ∈ seen then
        return (.again, .project items distinct seen ch.later)
      else return (.row out, .project items distinct (rowKey out items :: seen) ch.later)
  | .aggregate groupKeys aggs groups out ch, some b => do
      let specs ← Program.ofExcept (parseAggFuncs ctx aggs)
      let groups ← addRow ctx groupKeys specs (groups.getD []) b ch.now
      return (.again, .aggregate groupKeys aggs (some groups) out ch.later)
  | .aggregate groupKeys aggs groups _ ch, none => do
      let specs ← Program.ofExcept (parseAggFuncs ctx aggs)
      let out := (groups.getD []).map (groupRow groupKeys aggs specs)
      return (.again, .aggregate groupKeys aggs groups (some out) ch)
  | .sort keys rows _ ch, some b => return (.again, .sort keys (rows ++ [b]) false ch)
  | .sort keys rows _ ch, none => do
      let rows ← sortRows ctx keys rows ch
      return (.again, .sort keys rows true ch)
  | .skip 0, some b => return (.row b, .skip 0)
  | .skip (left + 1), some _ => return (.again, .skip left)
  | .skip _, none => return (.done, .skip 0)
  | .limit left, some b => return (.row b, .limit (left - 1))
  | .rowWrite w ch, some b => do
      let b ← w.run ctx b ch.now
      return (.row b, .rowWrite w ch.later)
  | u, none => return (.done, u)

/-- Operators that change the schema once and yield an empty row. -/
inductive SchemaChange where
  | createIndex (x : CreateIndex)
  | dropIndex (name : Str) (ifExists : Bool)
  | createConstraint (name label property : Str)
  | dropConstraint (name : Str) (ifExists : Bool)

def SchemaChange.run (ctx : Context) : SchemaChange → Txn Unit
  | .createIndex x => createIndexRun ctx x
  | .dropIndex name ifExists => dropIndexRun ctx name ifExists
  | .createConstraint name label property => createConstraintRun ctx name label property
  | .dropConstraint name ifExists => dropConstraintRun ctx name ifExists

inductive Listing where
  | showIndexes
  | showConstraints

def Listing.rows : Listing → Txn (List Row)
  | .showIndexes => indexRows
  | .showConstraints => constraintRows

/-- An operator without an input, and its state. A listing has no rows before it was read. -/
inductive Source where
  | unit (done : Bool)
  | nodeScan (var : Str) (nodes : NodeSource)
  | relSeek (x : RelByProperty) (ids : List UInt64) (rows : List Row)
  | schema (change : SchemaChange) (done : Bool)
  | listing (what : Listing) (rows : Option (List Row))

def Source.next (ctx : Context) : Source → Txn (Turn Row × Source)
  | .unit done => return (if done then .done else .row .empty, .unit true)
  | .nodeScan var nodes => do
      match ← nodes.next with
      | (none, nodes) => return (.done, .nodeScan var nodes)
      | (some n, nodes) => return (.row (OrderedMap.empty.set var (ofNode n)), .nodeScan var nodes)
  | .relSeek x ids (b :: rows) => return (.row b, .relSeek x ids rows)
  | .relSeek x [] [] => return (.done, .relSeek x [] [])
  | .relSeek x (id :: ids) [] => do
      let rows ← relSeekRows x id
      return (.again, .relSeek x ids rows)
  | .schema change true => return (.done, .schema change true)
  | .schema change false => do
      change.run ctx
      return (.row .empty, .schema change true)
  | .listing what none => do
      let rows ← what.rows
      return (.again, .listing what (some rows))
  | .listing what (some []) => return (.done, .listing what (some []))
  | .listing what (some (b :: rows)) => return (.row b, .listing what (some rows))

/-- The row of an inner plan, which all of its Argument leaves share: the first read takes it. -/
structure Argument where
  row : Row
  done : Bool

/-- A tree of operators with their state. The right rows of a product are kept once they are
`loaded`, and `cur` is the left row at hand with the right rows it still has to meet. For an
apply, no `newVars` is the inner join; `inner` runs on the outer row `cur` while it is `valid`.
-/
inductive Machine where
  | argument
  | source (src : Source)
  | unary (input : Machine) (u : Unary)
  | cartesian (left right : Machine) (rightRows : List Row) (loaded : Bool)
      (cur : Option (Row × List Row))
  | apply (outer : Machine) (innerPlan : Plan.Op) (newVars : Option (List Str)) (cur : Row)
      (valid : Bool) (inner : Machine) (arg : Argument) (emitted pendingEmpty : Bool) (ch : Choices)
  | union (parts : List Machine) (columns : List Str) (dedup : Bool) (seen : List Str)

def Machine.openApply (outer : Machine) (innerPlan : Plan.Op) (newVars : Option (List Str)) (ch : Choices)
    : Machine :=
  .apply outer innerPlan newVars .empty false (.source (.unit true)) ⟨.empty, true⟩ false false ch

/-- The number of rows of a SKIP or a LIMIT; what is below zero counts as zero. -/
def evalCount (ctx : Context) (e : Expr) (c : Choices) : Txn Nat := do
  let v ← eval ctx e .empty c
  match normalize v with
  | .int n => return n.toInt.toNat
  | _ => throw (.plain ("exec: SKIP/LIMIT requires an integer, got " ++ v.typeName))

mutual
/-- The machine of a plan, inside an apply with its current row. Scans are opened and seeks are
evaluated here.
-/
def buildWith (ctx : Context) (p : Plan.Op) (arg : Option Row) (c : Choices) : Txn Machine :=
  match p with
  | .nil => return .source (.unit false)
  | .argument =>
    match arg with
    | some _ => return .argument
    | none => throw (.plain "exec: Argument outside an OuterApply")
  | .allNodesScan var => do
      let cur ← scanAllNodes
      return .source (.nodeScan var (.cursor cur))
  | .nodeByLabelScan var label => do
      match ← Catalog.lookupLabel label with
      | none => return .source (.nodeScan var (.ids []))
      | some id => do
          let cur ← scanLabel id
          return .source (.nodeScan var (.cursor cur))
  | .nodeByPropertyRange x => do
      let source ← propertyRangeScan ctx x (arg.getD .empty) c
      return .source (.nodeScan x.var source)
  | .nodeByProperty var label key value => do
      let ids ← propertyScanIDs ctx label key value (arg.getD .empty) c
      return .source (.nodeScan var (.ids ids))
  | .relByProperty x => do
      let ids ← relSeekIDs ctx x (arg.getD .empty) c
      return .source (.relSeek x ids [])
  | .expand input x => do
      let m ← buildWith ctx input arg (c.sub 0)
      let typeIDs ← lookupTypes x.types
      let e : ExpandOp := ⟨x, typeIDs⟩
      return .unary m (.fan (if x.varLength then .varExpand e else .expand e) [] (c.sub 2))
  | .shortestPath input x => do
      let m ← buildWith ctx input arg (c.sub 0)
      let spec ← pathSpec x
      return .unary m (.fan (.shortestPath x spec) [] (c.sub 2))
  | .filter input pred => do
      let m ← buildWith ctx input arg (c.sub 0)
      return .unary m (.filter pred (c.sub 2))
  | .project input items distinct => do
      let m ← buildWith ctx input arg (c.sub 0)
      return .unary m (.project items distinct [] (c.sub 2))
  | .aggregate input groupKeys aggs _ => do
      let m ← buildWith ctx input arg (c.sub 0)
      return .unary m (.aggregate groupKeys aggs none none (c.sub 2))
  | .sort input keys => do
      let m ← buildWith ctx input arg (c.sub 0)
      return .unary m (.sort keys [] false (c.sub 2))
  | .skip input count => do
      let m ← buildWith ctx input arg (c.sub 0)
      let n ← evalCount ctx count (c.sub 2)
      return .unary m (.skip n)
  | .limit input count => do
      let m ← buildWith ctx input arg (c.sub 0)
      let n ← evalCount ctx count (c.sub 2)
      return .unary m (.limit n)
  | .cartesianProduct left right => do
      let l ← buildWith ctx left arg (c.sub 0)
      let r ← buildWith ctx right arg (c.sub 1)
      return .cartesian l r [] false none
  | .unwind input expr asName => do
      let m ← buildWith ctx input arg (c.sub 0)
      return .unary m (.fan (.unwind expr asName) [] (c.sub 2))
  | .outerApply outer inner newVars => do
      let m ← buildWith ctx outer arg (c.sub 0)
      return .openApply m inner (some newVars) (c.sub 2)
  | .apply outer inner => do
      let m ← buildWith ctx outer arg (c.sub 0)
      return .openApply m inner none (c.sub 2)
  | .union parts columns all => do
      let ms ← buildAll ctx parts arg (c.sub 0)
      return .union ms columns (!all) []
  | .create input parts => do
      let m ← buildWith ctx input arg (c.sub 0)
      return .unary m (.rowWrite (.create parts) (c.sub 2))
  | .merge input x => do
      let m ← buildWith ctx input arg (c.sub 0)
      return .unary m (.fan (.merge x) [] (c.sub 2))
  | .setItems input items => do
      let m ← buildWith ctx input arg (c.sub 0)
      return .unary m (.rowWrite (.setItems items) (c.sub 2))
  | .remove input items => do
      let m ← buildWith ctx input arg (c.sub 0)
      return .unary m (.rowWrite (.remove items) (c.sub 2))
  | .delete input exprs detach => do
      let m ← buildWith ctx input arg (c.sub 0)
      return .unary m (.rowWrite (.delete exprs detach) (c.sub 2))
  | .createIndex x => return .source (.schema (.createIndex x) false)
  | .dropIndex name ifExists => return .source (.schema (.dropIndex name ifExists) false)
  | .showIndexes => return .source (.listing .showIndexes none)
  | .createConstraint name label property =>
    return .source (.schema (.createConstraint name label property) false)
  | .dropConstraint name ifExists => return .source (.schema (.dropConstraint name ifExists) false)
  | .showConstraints => return .source (.listing .showConstraints none)
termination_by structural p

def buildAll (ctx : Context) (l : List Plan.Op) (arg : Option Row) (c : Choices) : Txn (List Machine) :=
  match l with
  | [] => return []
  | p :: rest => do
      let m ← buildWith ctx p arg c.now
      let more ← buildAll ctx rest arg c.later
      return m :: more
termination_by structural l
end

def unionKey (b : Row) (columns : List Str) : Str := canonKeyList (columns.map (cell b))

/-- The row with all entries of another. -/
def overlay (b other : Row) : Row := other.entries.foldl (fun m e => m.set e.1 e.2) b

/-- The row of an outer join without a match. -/
def nullExtend (b : Row) (newVars : List Str) : Row :=
  newVars.foldl (fun m v => m.set v .null) b

mutual
def step (ctx : Context) (m : Machine) (a : Argument) : Txn (Turn Row × Machine × Argument) :=
  match m with
  | .argument => return (if a.done then .done else .row a.row, .argument, { a with done := true })
  | .source src => do
      let (t, src) ← src.next ctx
      return (t, .source src, a)
  | .unary input u =>
    match u.act ctx with
    | some act => do
        let (t, u) ← act
        return (t, .unary input u, a)
    | none => do
        match ← step ctx input a with
        | (.row b, input, a) => do
            let (t, u) ← u.feed ctx (some b)
            return (t, .unary input u, a)
        | (.again, input, a) => return (.again, .unary input u, a)
        | (.done, input, a) => do
            let (t, u) ← u.feed ctx none
            return (t, .unary input u, a)
  | .cartesian left right rightRows true (some (b, r :: rows)) =>
    return (.row (overlay b r), .cartesian left right rightRows true (some (b, rows)), a)
  | .cartesian left right rightRows true (some (_, [])) =>
    return (.again, .cartesian left right rightRows true none, a)
  | .cartesian left right rightRows false (some (b, _)) => do
      -- the right side is only read once there is a left row
      match ← step ctx right a with
      | (.row r, right, a) =>
        return (.again, .cartesian left right (rightRows ++ [r]) false (some (b, [])), a)
      | (.again, right, a) => return (.again, .cartesian left right rightRows false (some (b, [])), a)
      | (.done, right, a) =>
        return (.again, .cartesian left right rightRows true (some (b, rightRows)), a)
  | .cartesian left right rightRows loaded none => do
      match ← step ctx left a with
      | (.row b, left, a) =>
        return (.again, .cartesian left right rightRows loaded (some (b, rightRows)), a)
      | (.again, left, a) => return (.again, .cartesian left right rightRows loaded none, a)
      | (.done, left, a) => return (.done, .cartesian left right rightRows loaded none, a)
  | .apply outer plan newVars cur _ inner arg emitted true ch =>
    return (.row (nullExtend cur (newVars.getD [])),
      .apply outer plan newVars cur false inner arg emitted false ch, a)
  | .apply outer plan newVars cur true inner arg emitted false ch => do
      match ← step ctx inner arg with
      | (.row b, inner, arg) =>
        return (.row b, .apply outer plan newVars cur true inner arg true false ch, a)
      | (.again, inner, arg) =>
        return (.again, .apply outer plan newVars cur true inner arg emitted false ch, a)
      | (.done, inner, arg) =>
        if !emitted && newVars.isSome then
          return (.again, .apply outer plan newVars cur true inner arg emitted true ch, a)
        else return (.again, .apply outer plan newVars cur false inner arg emitted false ch, a)
  | .apply outer plan newVars cur false inner arg emitted false ch => do
      match ← step ctx outer a with
      | (.row b, outer, a) => do
          let inner ← buildWith ctx plan (some b) ch.now
          return (.again, .apply outer plan newVars b true inner ⟨b, false⟩ false false ch.later, a)
      | (.again, outer, a) =>
        return (.again, .apply outer plan newVars cur false inner arg emitted false ch, a)
      | (.done, outer, a) =>
        return (.done, .apply outer plan newVars cur false inner arg emitted false ch, a)
  | .union parts columns dedup seen => stepUnion ctx parts columns dedup seen a
termination_by structural m

/-- The parts of a union one after the other. -/
def stepUnion (ctx : Context) (parts : List Machine) (columns : List Str) (dedup : Bool)
    (seen : List Str) (a : Argument) : Txn (Turn Row × Machine × Argument) :=
  match parts with
  | [] => return (.done, .union [] columns dedup seen, a)
  | m :: rest => do
      match ← step ctx m a with
      | (.row b, m, a) =>
        if dedup && unionKey b columns ∈ seen then
          return (.again, .union (m :: rest) columns dedup seen, a)
        else return (.row b, .union (m :: rest) columns dedup (unionKey b columns :: seen), a)
      | (.again, m, a) => return (.again, .union (m :: rest) columns dedup seen, a)
      | (.done, _, a) => return (.again, .union rest columns dedup seen, a)
termination_by structural parts
end

end Intreccio.Exec
