import Intreccio.Query.Format
import Intreccio.Query.Plan

/-! The planner (`query/plan/plan.go`): from clauses to a plan, by fixed rules. -/

namespace Intreccio.Plan

open Kv Ast

/-- What the planner knows of the indexes. A catalog that knows no relationship index answers
false, as does one that is absent.
-/
structure Catalog where
  hasIndex : Str → Str → Bool
  hasRelIndex : Str → Str → Bool

def noIndexes : Catalog := ⟨fun _ _ => false, fun _ _ => false⟩

mutual
def exprVars : Expr → List Str
  | .literal _ => []
  | .param _ => []
  | .var name => [name]
  | .propertyAccess target _ => exprVars target
  | .subscript target index => exprVars target ++ exprVars index
  | .slice target lower upper => exprVars target ++ optVars lower ++ optVars upper
  | .listComprehension loopVar list cond map =>
    exprVars list ++ (optVars cond ++ optVars map).filter (· ≠ loopVar)
  | .quantifier _ loopVar list cond => exprVars list ++ (exprVars cond).filter (· ≠ loopVar)
  | .unary _ e => exprVars e
  | .binary _ l r => exprVars l ++ exprVars r
  | .functionCall _ _ _ args => listVars args
  | .labelsPredicate e _ => exprVars e
  | .listLiteral elements => listVars elements
  | .mapLiteral entries =>
    ((entryVars entries).insertionSort (fun a b => a.1 ≤ b.1)).flatMap Prod.snd
  | .caseOf operand whens otherwise => optVars operand ++ whenVars whens ++ optVars otherwise
termination_by structural e => e

def optVars : Option Expr → List Str
  | none => []
  | some e => exprVars e
termination_by structural e => e

def listVars : List Expr → List Str
  | [] => []
  | e :: rest => exprVars e ++ listVars rest
termination_by structural l => l

def entryVars : List (Str × Expr) → List (Str × List Str)
  | [] => []
  | (k, e) :: rest => (k, exprVars e) :: entryVars rest
termination_by structural l => l

def whenVars : List (Expr × Expr) → List Str
  | [] => []
  | (cond, result) :: rest => exprVars cond ++ exprVars result ++ whenVars rest
termination_by structural l => l
end

mutual
/-- A case expression is not looked into. -/
def containsAggregate : Expr → Bool
  | .functionCall name _ _ args => isAggregate name || anyAggregate args
  | .binary _ l r => containsAggregate l || containsAggregate r
  | .unary _ e => containsAggregate e
  | .propertyAccess target _ => containsAggregate target
  | .subscript target index => containsAggregate target || containsAggregate index
  | .slice target lower upper => containsAggregate target || optAggregate lower || optAggregate upper
  | .listComprehension _ list cond map => containsAggregate list || optAggregate cond || optAggregate map
  | .quantifier _ _ list cond => containsAggregate list || containsAggregate cond
  | .labelsPredicate e _ => containsAggregate e
  | .listLiteral elements => anyAggregate elements
  | .mapLiteral entries => entryAggregate entries
  | .literal _ => false
  | .param _ => false
  | .var _ => false
  | .caseOf _ _ _ => false
termination_by structural e => e

def optAggregate : Option Expr → Bool
  | none => false
  | some e => containsAggregate e
termination_by structural e => e

def anyAggregate : List Expr → Bool
  | [] => false
  | e :: rest => containsAggregate e || anyAggregate rest
termination_by structural l => l

def entryAggregate : List (Str × Expr) → Bool
  | [] => false
  | (_, e) :: rest => containsAggregate e || entryAggregate rest
termination_by structural l => l
end

def conjuncts : Expr → List Expr
  | .binary .and l r => conjuncts l ++ conjuncts r
  | e => [e]

def andAll (first : Expr) (more : List Expr) : Expr := more.foldl (.binary .and) first

def eqExpr (v k : Str) (value : Expr) : Expr := .binary .eq (.propertyAccess (.var v) k) value

def propOfVar : Expr → Option (Str × Str)
  | .propertyAccess (.var name) key => some (name, key)
  | _ => none

/-- `var.key = value`, from conjunct `conjIdx` or inline. -/
structure Equality where
  var : Str
  key : Str
  value : Expr
  conjIdx : Option Nat

/-- The readings of an equality, one for each side that is a property of a variable. -/
def asEqualities (conjIdx : Nat) : Expr → List Equality
  | .binary .eq l r =>
    ((propOfVar l).map (fun (v, k) => ⟨v, k, r, some conjIdx⟩)).toList
      ++ ((propOfVar r).map (fun (v, k) => ⟨v, k, l, some conjIdx⟩)).toList
  | _ => []

inductive RangeOp where
  | gt
  | ge
  | lt
  | le
  | startsWith
deriving DecidableEq

/-- `var.key op value`. -/
structure RangePred where
  var : Str
  key : Str
  op : RangeOp
  value : Expr

def RangeOp.ofBinary : BinaryOp → Option RangeOp
  | .gt => some .gt
  | .ge => some .ge
  | .lt => some .lt
  | .le => some .le
  | .startsWith => some .startsWith
  | _ => none

/-- The comparison with its sides exchanged; a string test has no such form. -/
def RangeOp.flipped : RangeOp → Option RangeOp
  | .gt => some .lt
  | .ge => some .le
  | .lt => some .gt
  | .le => some .ge
  | .startsWith => none

def asRange : Expr → Option RangePred
  | .binary op l r => do
      let rangeOp ← RangeOp.ofBinary op
      match propOfVar l, propOfVar r, rangeOp.flipped with
      | some (v, k), _, _ => some ⟨v, k, rangeOp, r⟩
      | none, some (v, k), some turned => some ⟨v, k, turned, l⟩
      | _, _, _ => none
  | _ => none

/-- The names in scope in binding order, the plan so far and the next invented name. -/
structure Planner where
  boundOrder : List Str
  plan : Op
  synth : Nat

def Planner.start : Planner := ⟨[], .nil, 0⟩

namespace Planner

def bind (pl : Planner) (name : Str) : Planner :=
  if name = [] ∨ name ∈ pl.boundOrder then pl
  else { pl with boundOrder := pl.boundOrder ++ [name] }

def bindAll (pl : Planner) (names : List Str) : Planner := names.foldl bind pl

/-- Binding a name changes the bound names only. -/
@[simp] theorem bind_keeps (pl : Planner) (name : Str)
    : (pl.bind name).plan = pl.plan ∧ (pl.bind name).synth = pl.synth := by
  unfold bind
  split <;> exact ⟨rfl, rfl⟩

@[simp] theorem bindAll_keeps (pl : Planner) (names : List Str)
    : (pl.bindAll names).plan = pl.plan ∧ (pl.bindAll names).synth = pl.synth := by
  induction names generalizing pl with
  | nil => exact ⟨rfl, rfl⟩
  | cons name rest ih => simpa [bindAll] using ih (pl.bind name)

def isBound (pl : Planner) (name : Str) : Bool := name ≠ [] ∧ name ∈ pl.boundOrder

def newName (pl : Planner) (stem : String) : Str × Planner :=
  (lit stem ++ lit (toString pl.synth), { pl with synth := pl.synth + 1 })

/-- The value can be computed before the node is found. -/
def seekable (pl : Planner) (value : Expr) : Bool :=
  !containsAggregate value && (exprVars value).all pl.isBound

end Planner

def Op.isNil : Op → Bool
  | .nil => true
  | _ => false

/-- A pattern node with its name, and what the access path already guarantees of it. -/
structure PNode where
  name : Str
  anon : Bool
  labels : List Str
  props : OrderedMap Str Expr
  reachedByScan : Bool
  scanLabel : Str
  consumedInline : Str

structure PRel where
  name : Str
  anon : Bool
  types : List Str
  dir : Direction
  props : OrderedMap Str Expr
  varLen : Bool
  min : Int
  max : Int

def makeNode (pl : Planner) (n : NodePattern) : PNode × Planner :=
  if n.var = [] then
    let (name, pl) := pl.newName "_n"
    (⟨name, true, n.labels, n.props, false, [], []⟩, pl)
  else (⟨n.var, false, n.labels, n.props, false, [], []⟩, pl)

def makeRel (pl : Planner) (r : RelPattern) : PRel × Planner :=
  if r.var = [] then
    let (name, pl) := pl.newName "_r"
    (⟨name, true, r.types, r.direction, r.props, r.varLength, r.minHops, r.maxHops⟩, pl)
  else (⟨r.var, false, r.types, r.direction, r.props, r.varLength, r.minHops, r.maxHops⟩, pl)

def buildChain (pl : Planner) : List PatternChain → List (PRel × PNode) × Planner
  | [] => ([], pl)
  | ch :: rest =>
    let (rel, pl) := makeRel pl ch.rel
    let (node, pl) := makeNode pl ch.node
    let (more, pl) := buildChain pl rest
    ((rel, node) :: more, pl)

/-- The nodes of a part and its relationships, one fewer. -/
def buildPart (pl : Planner) (part : PatternPart) : List PNode × List PRel × Planner :=
  let (start, pl) := makeNode pl part.start
  let (chain, pl) := buildChain pl part.chain
  (start :: chain.map Prod.snd, chain.map Prod.fst, pl)

/-- The predicates that a filter has to check: labels and inline properties of nodes that the
access path does not guarantee, and the properties of relationships.
-/
def residualOfNode (nd : PNode) : List Expr :=
  let enforced := if nd.reachedByScan then nd.scanLabel else []
  let rest := nd.labels.filter (· ≠ enforced)
  (if rest.isEmpty then [] else [.labelsPredicate (.var nd.name) rest])
    ++ (nd.props.entries.filter (fun e => e.1 ≠ nd.consumedInline)).map
        (fun e => eqExpr nd.name e.1 e.2)

def residualOfRel (r : PRel) : List Expr := r.props.entries.map (fun e => eqExpr r.name e.1 e.2)

def residualPredicates (nodes : List PNode) (rels : List PRel) : List Expr :=
  nodes.flatMap residualOfNode ++ rels.flatMap residualOfRel

def equalitiesOf (eqs : List Equality) (var : Str) : List Equality := eqs.filter (·.var = var)

def rangesOf (ranges : List RangePred) (var : Str) : List RangePred := ranges.filter (·.var = var)

/-- One range predicate narrows the scan; the first of each kind counts. -/
def narrow (scan : NodeByPropertyRange) (r : RangePred) : NodeByPropertyRange :=
  match r.op with
  | .startsWith => if scan.startsWith.isNone then { scan with startsWith := some r.value } else scan
  | .gt | .ge =>
    if scan.lower.isNone then
      { scan with lower := some r.value, lowerInclusive := r.op = .ge }
    else scan
  | .lt | .le =>
    if scan.upper.isNone then
      { scan with upper := some r.value, upperInclusive := r.op = .le }
    else scan

/-- The scan that the usable range predicates on one key give, if any. -/
def rangeScanOn (pl : Planner) (var label key : Str) (ranges : List RangePred)
    : Option NodeByPropertyRange :=
  let usable := ranges.filter (fun r => r.key = key && pl.seekable r.value)
  let scan := usable.foldl narrow ⟨var, label, key, none, none, false, false, none⟩
  let scan := if scan.startsWith.isSome then { scan with lower := none, upper := none } else scan
  if scan.startsWith.isSome || scan.lower.isSome || scan.upper.isSome then some scan else none

/-- The first indexed key, in order, with a usable range predicate. -/
def rangeScan (cat : Catalog) (pl : Planner) (var label : Str) (ranges : List RangePred)
    : Option NodeByPropertyRange :=
  let keys := ((ranges.map RangePred.key).dedup).insertionSort (· ≤ ·)
  keys.findSome? (fun k =>
    if cat.hasIndex label k then rangeScanOn pl var label k ranges else none)

/-- A seek by an equality on an indexed property of one label, inline properties first. -/
def seekOn (cat : Catalog) (pl : Planner) (nd : PNode) (eqs : List Equality) (label : Str)
    : Option Equality :=
  let inline := nd.props.entries.map (fun (k, value) => Equality.mk nd.name k value none)
  (inline ++ eqs).find? (fun eq => cat.hasIndex label eq.key && pl.seekable eq.value)

/-- The access path of a pattern node and its rank: an index seek (4), a range scan (3), a
label scan (2) or a full scan (1).
-/
def scoreNode (cat : Catalog) (pl : Planner) (nd : PNode) (eqs : List Equality)
    (ranges : List RangePred) : Nat × Op × Option Equality :=
  let seek := nd.labels.findSome? (fun label =>
    (seekOn cat pl nd eqs label).map (fun eq => (label, eq)))
  match seek with
  | some (label, eq) => (4, .nodeByProperty nd.name label eq.key eq.value, some eq)
  | none =>
    match nd.labels.findSome? (fun label => rangeScan cat pl nd.name label ranges) with
    | some scan => (3, .nodeByPropertyRange scan, none)
    | none =>
      match nd.labels with
      | label :: _ => (2, .nodeByLabelScan nd.name label, none)
      | [] => (1, .allNodesScan nd.name, none)

/-- The position, scan and equality of the best anchor so far, with its rank. -/
abbrev Anchor := Nat × Nat × Op × Option Equality

def betterAnchor (best : Option Anchor) (candidate : Anchor) : Option Anchor :=
  match best with
  | none => some candidate
  | some old => if old.1 < candidate.1 then some candidate else some old

/-- One candidate for the anchor, with its position; a bound node is none. -/
def anchorStep (cat : Catalog) (pl : Planner) (eqs : List Equality) (ranges : List RangePred)
    (best : Option Anchor) (p : PNode × Nat) : Option Anchor :=
  if pl.isBound p.1.name then best
  else
    let (score, scan, eq) := scoreNode cat pl p.1 (equalitiesOf eqs p.1.name) (rangesOf ranges p.1.name)
    betterAnchor best (score, p.2, scan, eq)

/-- The node to start a part from: the best ranked of those not bound, the first on a tie. -/
def chooseAnchor (cat : Catalog) (pl : Planner) (nodes : List PNode) (eqs : List Equality)
    (ranges : List RangePred) : Nat × Op × Option Equality :=
  match nodes.zipIdx.foldl (anchorStep cat pl eqs ranges) none with
  | some (_, i, scan, eq) => (i, scan, eq)
  | none => (0, .allNodesScan ((nodes.head?.map PNode.name).getD []), none)

def scanVars : Op → List Str
  | .nodeByProperty _ _ _ value => exprVars value
  | .relByProperty seek => exprVars seek.value
  | .nodeByPropertyRange scan => optVars scan.lower ++ optVars scan.upper ++ optVars scan.startsWith
  | _ => []

def scanLabelOf : Op → Str
  | .nodeByLabelScan _ label => label
  | .nodeByProperty _ label _ _ => label
  | .nodeByPropertyRange scan => scan.label
  | _ => []

/-- Join an access path to the plan so far: once per row when it reads the row. -/
def joinScan (plan scan : Op) : Op :=
  if plan.isNil then scan
  else if (scanVars scan).isEmpty then .cartesianProduct plan scan
  else .apply plan (.cartesianProduct .argument scan)

def flip : Direction → Direction
  | .dirOut => .dirIn
  | .dirIn => .dirOut
  | .dirBoth => .dirBoth

/-- A relationship of a part with the nodes to its left and right. -/
abbrev Hop := PNode × PRel × PNode

def hops (nodes : List PNode) (rels : List PRel) : List Hop := nodes.zip (rels.zip nodes.tail)

def emitExpand (pl : Planner) (src : PNode) (rel : PRel) (dst : PNode) (reversed : Bool)
    : Expand × Planner :=
  (⟨src.name, rel.name, dst.name, rel.types, if reversed then flip rel.dir else rel.dir,
    rel.varLen, rel.min, rel.max, pl.isBound dst.name, false, false⟩,
    (pl.bind rel.name).bind dst.name)

/-- Expand the hops in the given order, each forwards or backwards. -/
def emitExpands (pl : Planner) : List (Hop × Bool) → List Expand × Planner
  | [] => ([], pl)
  | ((left, rel, right), reversed) :: rest =>
    let (x, pl) :=
      if reversed then emitExpand pl right rel left true else emitExpand pl left rel right false
    let (more, pl) := emitExpands pl rest
    (x :: more, pl)

/-- The hops right of position `i` forwards, then those left of position `j` backwards. -/
def outwards (path : List Hop) (i j : Nat) : List (Hop × Bool) :=
  (path.drop i).map (·, false) ++ (path.take j).reverse.map (·, true)

/-- Whether the last of the elements with a name is anonymous; a name of a later element
replaces that of an earlier one.
-/
def isAnon (nodes : List PNode) (rels : List PRel) (name : Str) : Bool :=
  (((nodes.map (fun nd => (nd.name, nd.anon))) ++ rels.map (fun r => (r.name, r.anon))).filter
    (fun e => e.1 = name)).getLast?.elim false Prod.snd

/-- Flag the anonymous elements of single-hop expands that no residual predicate reads. -/
def markUnused (nodes : List PNode) (rels : List PRel) (residual : List Expr) (x : Expand) : Expand :=
  if x.varLength then x
  else
    let read := residual.flatMap exprVars
    { x with
      toUnused := isAnon nodes rels x.toVar && !(x.toVar ∈ read) && !x.toBound
      relUnused := isAnon nodes rels x.relVar && !(x.relVar ∈ read) }

def stack (plan : Op) (expands : List Expand) : Op := expands.foldl Op.expand plan

/-- Expand from an anchor and collect the residual predicates. A path variable reads every
element.
-/
def finishPart (pl : Planner) (part : PatternPart) (nodes : List PNode) (rels : List PRel)
    (steps : List (Hop × Bool)) : Planner × List Expr :=
  let (expands, pl) := emitExpands pl steps
  let residual := residualPredicates nodes rels
  let expands :=
    if part.var = [] then expands.map (markUnused nodes rels residual) else expands
  ({ pl with plan := stack pl.plan expands }, residual)

def relSeek (cat : Catalog) (pl : Planner) (hop : Hop) (eq : Equality) : Option RelByProperty :=
  let (left, r, right) := hop
  match r.varLen, r.types with
  | false, [type] =>
    if cat.hasRelIndex type eq.key && pl.seekable eq.value then
      some ⟨r.name, left.name, right.name, r.dir, type, eq.key, eq.value⟩
    else none
  | _, _ => none

/-- The seek on one relationship, inline properties first; only an equality of the WHERE is
reported as consumed.
-/
def relSeekOn (cat : Catalog) (pl : Planner) (eqs : List Equality) (hop : Hop)
    : Option (RelByProperty × Option Equality) :=
  let r := hop.2.1
  let inline := r.props.entries.map (fun (k, value) => Equality.mk r.name k value none)
  (inline.findSome? (fun eq => (relSeek cat pl hop eq).map (·, none))).or
    ((equalitiesOf eqs r.name).findSome? (fun eq => (relSeek cat pl hop eq).map (·, some eq)))

def isSeek : Op → Bool
  | .nodeByProperty _ _ _ _ => true
  | _ => false

/-- A relationship seek to start from, when no node can be found by an index seek. -/
def relAnchor (cat : Catalog) (pl : Planner) (nodes : List PNode) (rels : List PRel)
    (eqs : List Equality) (ranges : List RangePred)
    : Option (Nat × RelByProperty × Option Equality) :=
  if isSeek (chooseAnchor cat pl nodes eqs ranges).2.1 then none
  else
    (hops nodes rels).zipIdx.findSome? (fun (hop, i) =>
      (relSeekOn cat pl eqs hop).map (fun (seek, eq) => (i, seek, eq)))

/-- The planner after a part, its residual predicates and the conjuncts consumed so far. -/
abbrev PartResult := Planner × List Expr × List Nat

def consume (consumed : List Nat) (eq : Option Equality) : List Nat :=
  (eq.bind Equality.conjIdx).elim consumed (consumed ++ [·])

def planFromRel (pl : Planner) (part : PatternPart) (nodes : List PNode) (rels : List PRel)
    (ri : Nat) (seek : RelByProperty) (eq : Option Equality) (consumed : List Nat) : PartResult :=
  let pl := { pl with plan := joinScan pl.plan (.relByProperty seek) }
  let pl := pl.bindAll [seek.relVar, seek.fromVar, seek.toVar]
  let (pl, residual) := finishPart pl part nodes rels (outwards (hops nodes rels) (ri + 1) ri)
  (pl, residual, consume consumed eq)

/-- What the anchor of a part guarantees of its node. -/
def anchored (scan : Op) (eq : Option Equality) (nd : PNode) : PNode :=
  { nd with
    reachedByScan := true
    scanLabel := scanLabelOf scan
    consumedInline :=
      match eq with
      | some ⟨_, key, _, none⟩ => key
      | _ => nd.consumedInline }

def planFromNode (cat : Catalog) (pl : Planner) (part : PatternPart) (nodes : List PNode)
    (rels : List PRel) (eqs : List Equality) (ranges : List RangePred) (consumed : List Nat)
    : PartResult :=
  let (idx, scan, eq) := chooseAnchor cat pl nodes eqs ranges
  let pl := { pl with plan := joinScan pl.plan scan }
  let nodes := nodes.modify idx (anchored scan eq)
  let pl := pl.bind ((nodes[idx]?.map PNode.name).getD [])
  let (pl, residual) := finishPart pl part nodes rels (outwards (hops nodes rels) idx idx)
  (pl, residual, consume consumed eq)

/-- Both ends of a shortest path must be bound by now. -/
def planShortest (pl : Planner) (part : PatternPart) : Except Err Planner := do
  match part.chain with
  | [] => throw (.plain "runtime error: index out of range [0] with length 0")
  | ch :: _ =>
    let src := part.start.var
    let dst := ch.node.var
    match [src, dst].find? (fun v => !pl.isBound v) with
    | some v =>
      throw (.text (lit "plan: shortestPath endpoint " ++ v
        ++ lit " must be bound by an earlier pattern, e.g. MATCH (" ++ v
        ++ lit " \x7b..\x7d), ..., p = shortestPath(...)"))
    | none =>
      if pl.plan.isNil then
        throw (.plain "plan: shortestPath needs its endpoints bound first")
      let x : ShortestPath := ⟨src, dst, part.var, ch.rel.var, ch.rel.types, ch.rel.direction,
        ch.rel.minHops, ch.rel.maxHops, part.shortest = .shortestAll⟩
      let pl := { pl with plan := .shortestPath pl.plan x }
      return pl.bindAll [part.var, ch.rel.var]

def planPart (cat : Catalog) (pl : Planner) (part : PatternPart) (eqs : List Equality)
    (ranges : List RangePred) (consumed : List Nat) : Except Err PartResult := do
  if part.shortest ≠ .notShortest then
    let pl ← planShortest pl part
    return (pl, [], consumed)
  let (nodes, rels, pl) := buildPart pl part
  match nodes.findIdx? (fun nd => pl.isBound nd.name) with
  | some i =>
    let (pl, residual) := finishPart pl part nodes rels (outwards (hops nodes rels) i i)
    return (pl, residual, consumed)
  | none =>
    match relAnchor cat pl nodes rels eqs ranges with
    | some (ri, seek, eq) => return planFromRel pl part nodes rels ri seek eq consumed
    | none => return planFromNode cat pl part nodes rels eqs ranges consumed

def planParts (cat : Catalog) (eqs : List Equality) (ranges : List RangePred)
    : List PatternPart → Planner → List Nat → Except Err PartResult
  | [], pl, consumed => return (pl, [], consumed)
  | part :: rest, pl, consumed => do
      let (pl, residual, consumed) ← planPart cat pl part eqs ranges consumed
      let (pl, more, consumed) ← planParts cat eqs ranges rest pl consumed
      return (pl, residual ++ more, consumed)

def shortestLast (parts : List PatternPart) : List PatternPart :=
  parts.filter (·.shortest = .notShortest) ++ parts.filter (·.shortest ≠ .notShortest)

/-- The variables of the shortest paths of a MATCH and of their relationships. -/
def shortestVars (parts : List PatternPart) : List Str :=
  (parts.filter (·.shortest ≠ .notShortest)).flatMap (fun p =>
    [p.var, ((p.chain.head?).map (·.rel.var)).getD []].filter (· ≠ []))

def checkShortestFilters (parts : List PatternPart) (residual : List Expr) : Except Err Unit :=
  match (residual.flatMap exprVars).find? (· ∈ shortestVars parts) with
  | none => return ()
  | some v =>
    throw (.text (lit "plan: a WHERE condition on the shortest path " ++ v
      ++ lit " is not supported in the same MATCH; filter in a following WITH ... WHERE"))

/-- The patterns of a MATCH on top of the plan so far, and one filter for what is left over. -/
def planPattern (cat : Catalog) (pl : Planner) (m : Match) : Except Err Planner := do
  let whereConj := (m.cond.map conjuncts).getD []
  let eqs := whereConj.zipIdx.flatMap (fun (e, i) => asEqualities i e)
  let ranges := whereConj.filterMap asRange
  let (pl, residual, consumed) ← planParts cat eqs ranges (shortestLast m.parts) pl []
  let residual := residual
    ++ (whereConj.zipIdx.filter (fun (_, i) => i ∉ consumed)).map Prod.fst
  checkShortestFilters m.parts residual
  match residual with
  | [] => return pl
  | first :: more => return { pl with plan := .filter pl.plan (andAll first more) }

/-- The pattern is planned from the row at hand; what it binds anew is null without a match. -/
def planOptionalMatch (cat : Catalog) (pl : Planner) (m : Match) : Except Err Planner := do
  let inner ← planPattern cat { pl with plan := .argument } m
  let newVars := inner.boundOrder.filter (· ∉ pl.boundOrder)
  return { inner with plan := .outerApply pl.plan inner.plan newVars }

def planMatch (cat : Catalog) (pl : Planner) (m : Match) : Except Err Planner :=
  if m.isOptional then planOptionalMatch cat pl m else planPattern cat pl m

def expandItems (pl : Planner) (star : Bool) (items : List ReturnItem) : List ProjItem :=
  (if star then pl.boundOrder.map (fun v => ProjItem.mk (.var v) v) else [])
    ++ items.map (fun it => ⟨it.expr, if it.asName = [] then format it.expr else it.asName⟩)

/-- Projection or, with an aggregate among the items, grouping by the others; the scope
becomes the columns.
-/
def projectOrAggregate (pl : Planner) (star : Bool) (items : List ReturnItem) (distinct : Bool)
    : Planner :=
  let projItems := expandItems pl star items
  let aggs := projItems.filter (fun pi => containsAggregate pi.expr)
  let groups := projItems.filter (fun pi => !containsAggregate pi.expr)
  let plan :=
    if aggs.isEmpty then Op.project pl.plan projItems distinct
    else .aggregate pl.plan groups aggs distinct
  Planner.bindAll ⟨[], plan, pl.synth⟩ (projItems.map ProjItem.column)

def applyTail (plan : Op) (orderBy : List SortItem) (skip limit : Option Expr) : Op :=
  let plan :=
    if orderBy.isEmpty then plan else .sort plan (orderBy.map (fun s => ⟨s.expr, s.desc⟩))
  let plan := skip.elim plan (.skip plan)
  limit.elim plan (.limit plan)

def planReturn (pl : Planner) (r : Return) : Planner :=
  let pl := projectOrAggregate pl r.star r.items r.distinct
  { pl with plan := applyTail pl.plan r.orderBy r.skip r.limit }

/-- The WHERE of a WITH is applied before ORDER BY, SKIP and LIMIT. -/
def planWith (pl : Planner) (w : With) : Planner :=
  let pl := projectOrAggregate pl w.star w.items w.distinct
  let plan := w.cond.elim pl.plan (.filter pl.plan)
  { pl with plan := applyTail plan w.orderBy w.skip w.limit }

def patternVars (part : PatternPart) : List Str :=
  part.var :: part.start.var :: part.chain.flatMap (fun ch => [ch.rel.var, ch.node.var])

def indexColumns : List Str := [lit "name", lit "label", lit "property", lit "entity"]

def constraintColumns : List Str := [lit "name", lit "label", lit "property", lit "type"]

def planClause (cat : Catalog) (pl : Planner) : Clause → Except Err Planner
  | .ofMatch m => planMatch cat pl m
  | .ofWith w => return planWith pl w
  | .ofReturn r => return planReturn pl r
  | .ofCreate parts =>
    return Planner.bindAll { pl with plan := .create pl.plan parts } (parts.flatMap patternVars)
  | .ofMerge m => return Planner.bindAll { pl with plan := .merge pl.plan m } (patternVars m.part)
  | .ofSet items => return { pl with plan := .setItems pl.plan items }
  | .ofRemove items => return { pl with plan := .remove pl.plan items }
  | .ofUnwind e asName => return Planner.bind { pl with plan := .unwind pl.plan e asName } asName
  | .ofDelete detach exprs => return { pl with plan := .delete pl.plan exprs detach }
  | .ofCreateIndex c => return { pl with plan := .createIndex c }
  | .ofDropIndex name ifExists => return { pl with plan := .dropIndex name ifExists }
  | .ofCreateConstraint name label property =>
    return { pl with plan := .createConstraint name label property }
  | .ofDropConstraint name ifExists => return { pl with plan := .dropConstraint name ifExists }
  | .ofShowConstraints => return Planner.bindAll { pl with plan := .showConstraints } constraintColumns
  | .ofShowIndexes => return Planner.bindAll { pl with plan := .showIndexes } indexColumns

def planClauses (cat : Catalog) : List Clause → Planner → Except Err Planner
  | [], pl => return pl
  | c :: rest, pl => do
      let pl ← planClause cat pl c
      planClauses cat rest pl

theorem planClauses_append (cat : Catalog) (pre rest : List Clause) (pl : Planner)
    : planClauses cat (pre ++ rest) pl = (planClauses cat pre pl >>= planClauses cat rest) := by
  induction pre generalizing pl with
  | nil => rfl
  | cons first more ih =>
    simp only [List.cons_append, planClauses, LawfulMonad.bind_assoc]
    exact congrArg (planClause cat pl first >>= ·) (funext ih)

/-- The plan of one arm and its columns. -/
def planArm (cat : Catalog) (clauses : List Clause) : Except Err (Op × List Str) := do
  let pl ← planClauses cat clauses .start
  if pl.plan.isNil then throw (.plain "plan: no plan produced")
  return (pl.plan, pl.boundOrder)

def planArms (cat : Catalog) : List QueryUnion → Except Err (List Op)
  | [] => return []
  | u :: rest => do
      let (arm, _) ← planArm cat u.clauses
      let more ← planArms cat rest
      return arm :: more

/-- One arm without ALL makes the whole union drop duplicates. -/
def plan (q : Query) (cat : Catalog) : Except Err Op := do
  let (first, columns) ← planArm cat q.clauses
  if q.unions.isEmpty then return first
  let parts ← planArms cat q.unions
  return .union (first :: parts) columns (q.unions.all QueryUnion.all)

/-- The arms of a query: its clauses, and those of each UNION. -/
def arms (q : Query) : List (List Clause) := q.clauses :: q.unions.map QueryUnion.clauses

end Intreccio.Plan
