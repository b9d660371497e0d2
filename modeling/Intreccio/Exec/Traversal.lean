import Intreccio.Graph.ShortestPaths
import Intreccio.Exec.Writes
import Intreccio.Query.Plan

/-! Scans, seeks and expansions (`internal/exec/exec.go`, `relseek.go`, `expand.go`,
`shortest.go`, `unwind.go`).
An operator that keeps a current row and a list of pending items keeps here the list of the
reads that are still to be made, each of which may give a row.
-/

namespace Intreccio.Exec

open Kv Words Graph Ast Plan

/-- A read that is still to be made for a row. -/
abbrev Delayed := Txn (Option Row)

/-- Where a node scan reads from: a cursor, or a list of IDs that a lookup found. -/
inductive NodeSource where
  | cursor (cur : NodeCursor)
  | ids (rest : List UInt64)

def NodeSource.next : NodeSource → Txn (Option Node × NodeSource)
  | .cursor cur => do
      let (node, cur) ← cur.next
      return (node, .cursor cur)
  | .ids [] => return (none, .ids [])
  | .ids (id :: rest) => do
      let node ← getNode id
      return (some node, .ids rest)

/-- The label and the key of a seek, if both are known. -/
def seekIDs (lookupOwner : Str → Txn (Option UInt32)) (owner key : Str)
    : Txn (Option (UInt32 × UInt32)) := do
  match ← lookupOwner owner with
  | none => return none
  | some ownerID => do
      let keyID ← Catalog.lookupKey key
      return keyID.map (fun k => (ownerID, k))

/-- Lists and maps have no index keys: the label is scanned. -/
def nodesWithEqualProperty (labelID keyID : UInt32) (value : Val) : Txn (List UInt64) := do
  let ids ← nodesByLabel labelID
  nodesWhere keyID (equals · value) ids

def propertyScanIDs (ctx : Context) (label key : Str) (value : Expr) (row : Row) (c : Choices)
    : Txn (List UInt64) := do
  match ← seekIDs Catalog.lookupLabel label key with
  | none => return []
  | some (labelID, keyID) => do
      let v ← eval ctx value row c
      let v := normalize v
      if isNull v then return []
      else if isIndexable v then nodesByProperty labelID keyID v
      else nodesWithEqualProperty labelID keyID v

def evalBound (ctx : Context) (e : Option Expr) (inclusive : Bool) (row : Row) (c : Choices)
    : Txn (Option (Val × Bool)) :=
  match e with
  | none => return none
  | some e => do
      let v ← eval ctx e row c
      return some (v, inclusive)

/-- Open the scan of a range, whose strings start with `stem`. -/
def openRange (ctx : Context) (x : NodeByPropertyRange) (labelID keyID : UInt32)
    (stem : Option Str) (row : Row) (c : Choices) : Txn NodeSource := do
  let lower ← evalBound ctx x.lower x.lowerInclusive row (c.sub 1)
  let upper ← evalBound ctx x.upper x.upperInclusive row (c.sub 2)
  let cur ← scanPropertyRange labelID keyID ⟨lower, upper, stem⟩
  return cur.elim (.ids []) .cursor

/-- The scan of a range; it may be empty, and return more than the range. -/
def propertyRangeScan (ctx : Context) (x : NodeByPropertyRange) (row : Row) (c : Choices)
    : Txn NodeSource := do
  match ← seekIDs Catalog.lookupLabel x.label x.key with
  | none => return .ids []
  | some (labelID, keyID) =>
    match x.startsWith with
    | none => openRange ctx x labelID keyID none row c
    | some e => do
        match ← eval ctx e row (c.sub 0) with
        | .str s => openRange ctx x labelID keyID (some s) row c
        | _ => return .ids []

def relSeekIDs (ctx : Context) (x : RelByProperty) (row : Row) (c : Choices) : Txn (List UInt64) := do
  match ← seekIDs Catalog.lookupType x.type x.key with
  | none => return []
  | some (typeID, keyID) => do
      let v ← eval ctx x.value row c
      let v := normalize v
      if isNull v then return []
      else if isIndexable v then edgesByProperty typeID keyID v
      else edgesWhere typeID keyID (equals · v)

/-- The rows of a relationship: one for each orientation, outgoing first. -/
def relSeekRows (x : RelByProperty) (id : UInt64) : Txn (List Row) := do
  let e ← getEdge id
  let src ← getNode e.src
  let dst ← (if e.dst ≠ e.src then getNode e.dst else pure src)
  let pairs := (if x.dir = .dirIn then [] else [(src, dst)])
    ++ (if x.dir = .dirOut then [] else [(dst, src)])
  let pairs := pairs.filter (fun (p : Node × Node) => x.fromVar ≠ x.toVar || p.1.id = p.2.id)
  return pairs.map (fun p =>
    ((OrderedMap.empty.set x.relVar (ofEdge e)).set x.fromVar (ofNode p.1)).set x.toVar (ofNode p.2))

def lookupTypes : List Str → Txn (List UInt32)
  | [] => return []
  | name :: rest => do
      let id ← Catalog.lookupType name
      let more ← lookupTypes rest
      return id.toList ++ more

/-- An expand whose types are resolved: without types every type is followed, and a type that
is not known matches nothing.
-/
structure ExpandOp where
  x : Expand
  typeIDs : List UInt32

/-- Type 0 stands for every type. -/
def ExpandOp.typeFilter (e : ExpandOp) : List UInt32 := if e.x.types.isEmpty then [0] else e.typeIDs

/-- A matched edge and the end that is reached. -/
structure EdgeHit where
  ref : EdgeRef
  other : UInt64

/-- The edges of a node in the direction and of the types of an expand, outgoing first. -/
def ExpandOp.gather (e : ExpandOp) (nodeID : UInt64) : Txn (List EdgeHit) := do
  let out ← (if e.x.dir = .dirIn then pure [] else scanTypes (outEdges nodeID) e.typeFilter)
  let inc ← (if e.x.dir = .dirOut then pure [] else scanTypes (inEdges nodeID) e.typeFilter)
  return out.map (fun r => ⟨r, r.dst⟩) ++ inc.map (fun r => ⟨r, r.src⟩)

/-- The node at the far end that a row has already, if the expand may rely on one. -/
def ExpandOp.existing (e : ExpandOp) (cur : Row) : Option (NodeOf Val) :=
  if e.x.toBound then nodeAt cur e.x.toVar else none

/-- The far end of a hit: the node of the row, the ID alone when nothing reads it, or the record. -/
def ExpandOp.toNode (e : ExpandOp) (cur : Row) (hit : EdgeHit) : Txn Val :=
  match e.existing cur with
  | some n => return .node n
  | none =>
    if e.x.toUnused then return .node ⟨hit.other, [], []⟩
    else do
      let n ← getNode hit.other
      return ofNode n

def ExpandOp.edge (e : ExpandOp) (hit : EdgeHit) : Txn Val :=
  if e.x.relUnused then return .edge ⟨hit.ref.id, hit.ref.type, hit.ref.src, hit.ref.dst, []⟩
  else do
    let r ← getEdge hit.ref.id
    return ofEdge r

/-- The row of a hit. A bound end must be the end that is reached. -/
def ExpandOp.emit (e : ExpandOp) (cur : Row) (hit : EdgeHit) : Delayed := do
  if (e.existing cur).any (fun n => n.id ≠ hit.other) then return none
  let toNode ← e.toNode cur hit
  let edge ← e.edge hit
  return some ((cur.set e.x.toVar toNode).set e.x.relVar edge)

def ExpandOp.spread (e : ExpandOp) (b : Row) : Txn (List Delayed) :=
  match nodeAt b e.x.fromVar with
  | none => throw (.text (lit "exec: expand source " ++ e.x.fromVar ++ lit " is not a node"))
  | some n => do
      let hits ← e.gather n.id
      return hits.map (e.emit b)

/-- The depth of a search without an upper bound. -/
def varExpandMaxDepth : Nat := 100

/-- A trail: the node it reaches and its relationships. -/
structure VarHit where
  toID : UInt64
  edges : List UInt64

/-- The trails that are one edge longer, from each trail of the frontier in turn. -/
def ExpandOp.layer (e : ExpandOp) : List VarHit → Txn (List VarHit)
  | [] => return []
  | f :: rest => do
      let hits ← e.gather f.toID
      let longer := (hits.filter (fun h => h.ref.id ∉ f.edges)).map
        (fun h => ⟨h.other, f.edges ++ [h.ref.id]⟩)
      let more ← e.layer rest
      return longer ++ more

/-- The trails of length `d` and more, for at most `fuel` lengths, that have at least `least`
relationships.
-/
def ExpandOp.trails (e : ExpandOp) (least : Nat) : Nat → Nat → List VarHit → Txn (List VarHit)
  | 0, _, _ => return []
  | fuel + 1, d, frontier => do
      let next ← e.layer frontier
      if next.isEmpty then return []
      let more ← e.trails least fuel (d + 1) next
      return (if least ≤ d then next else []) ++ more

def ExpandOp.bfs (e : ExpandOp) (fromID : UInt64) : Txn (List VarHit) := do
  let least := if e.x.minHops < 0 then 1 else e.x.minHops.toNat
  let most := if e.x.maxHops < 0 then varExpandMaxDepth else e.x.maxHops.toNat
  let more ← e.trails least most 1 [⟨fromID, []⟩]
  return (if least = 0 then [⟨fromID, []⟩] else []) ++ more

def fetchEdges : List UInt64 → Txn (List (EdgeOf Val))
  | [] => return []
  | id :: rest => do
      let e ← getEdge id
      let more ← fetchEdges rest
      return edgeOf e :: more

def ExpandOp.emitTrail (e : ExpandOp) (cur : Row) (hit : VarHit) : Delayed := do
  if (e.existing cur).any (fun n => n.id ≠ hit.toID) then return none
  let n ← getNode hit.toID
  let edges ← fetchEdges hit.edges
  return some ((cur.set e.x.toVar (ofNode n)).set e.x.relVar (.edges edges))

def ExpandOp.spreadTrails (e : ExpandOp) (b : Row) : Txn (List Delayed) :=
  match nodeAt b e.x.fromVar with
  | none =>
    throw (.text (lit "exec: var-length expand source " ++ e.x.fromVar ++ lit " is not a node"))
  | some n => do
      let hits ← e.bfs n.id
      return hits.map (e.emitTrail b)

def firstOccurrences (l : List UInt32) : List UInt32 :=
  l.foldl (fun seen id => if id ∈ seen then seen else seen ++ [id]) []

/-- The search of a plan; type names that are not known match nothing. -/
def pathSpec (x : ShortestPath) : Txn PathSpec := do
  let ids ← lookupTypes x.types
  return {
    out := x.dir ≠ .dirIn
    inc := x.dir ≠ .dirOut
    types := if x.types.isEmpty then none else some (firstOccurrences ids)
    minHops := if x.minHops < 0 then 1 else x.minHops
    maxHops := x.maxHops
    all := x.all }

def loadNodes : List UInt64 → Txn (List (NodeOf Val))
  | [] => return []
  | id :: rest => do
      let n ← getNode id
      let more ← loadNodes rest
      return nodeOf n :: more

def emitPath (x : ShortestPath) (cur : Row) (p : Graph.Path) : Delayed := do
  let nodes ← loadNodes p.nodes
  let rels ← fetchEdges (p.rels.map EdgeRef.id)
  return some (bindName (bindName cur x.pathVar (.path nodes rels)) x.relVar (.edges rels))

def spreadPaths (x : ShortestPath) (spec : PathSpec) (b : Row) : Txn (List Delayed) :=
  let start := cell b x.fromVar
  let finish := cell b x.toVar
  if isNull start || isNull finish then return []
  else
    match asNode start, asNode finish with
    | some s, some f => do
        let paths ← shortestPaths s.id f.id spec
        return paths.map (emitPath x b)
    | _, _ =>
      throw (.plain ("exec: shortestPath endpoints must be nodes, got " ++ start.typeName
        ++ " and " ++ finish.typeName))

def spreadList (ctx : Context) (expr : Expr) (asName : Str) (b : Row) (c : Choices)
    : Txn (List Delayed) := do
  match ← eval ctx expr b c with
  | .null => return []
  | .list items => return items.map (fun v => return some (b.set asName v))
  | v => throw (.plain ("exec: UNWIND expects a list, got " ++ v.typeName))

end Intreccio.Exec
