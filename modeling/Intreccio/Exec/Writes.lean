import Intreccio.Catalog.Listing
import Intreccio.Exec.Eval

/-! What the write operators do to a row (`internal/exec/write.go`, `constraint.go`).
A row that the source changes in place is passed on.
-/

namespace Intreccio.Exec

open Kv Words Graph Ast

def nodeAt (b : Row) (name : Str) : Option (NodeOf Val) := asNode (cell b name)

def bindName (b : Row) (name : Str) (v : Val) : Row := if name = [] then b else b.set name v

def toMap (entries : List (Str × Val)) : OrderedMap Str Val :=
  entries.foldl (fun m e => m.set e.1 e.2) .empty

def propEvals (ctx : Context) (props : OrderedMap Str Expr) (b : Row) (c : Choices)
    : List (Str × Txn Val) :=
  c.range (evalEntries ctx props.entries b (c.sub 0))

def evalProps (ctx : Context) (props : OrderedMap Str Expr) (b : Row) (c : Choices)
    : Txn (OrderedMap Str Val) := do
  let entries ← runEntries (propEvals ctx props b c)
  return toMap entries

def makeNode (ctx : Context) (b : Row) (n : NodePattern) (c : Choices) : Txn (NodeOf Val) := do
  let props ← evalProps ctx n.props b (c.sub 0)
  let id ← createNode (c.sub 1).toMapOrder n.labels props
  let node ← getNode id
  return nodeOf node

/-- The node of a pattern node and the row with it: a variable that holds a node is reused. -/
def createOrReuseNode (ctx : Context) (b : Row) (n : NodePattern) (c : Choices)
    : Txn (NodeOf Val × Row) := do
  match if n.var = [] then none else nodeAt b n.var with
  | some existing => return (existing, b)
  | none => do
      let node ← makeNode ctx b n c
      return (node, bindName b n.var (.node node))

def createRel (ctx : Context) (b : Row) (r : RelPattern) (start finish : NodeOf Val) (c : Choices)
    : Txn Row := do
  if r.direction = .dirBoth then throw (.plain "exec: CREATE requires a directed relationship")
  match r.types with
  | [type] => do
      if r.varLength then
        throw (.plain "exec: CREATE does not support variable-length relationships")
      if r.var ≠ [] && (b.get r.var).isSome then
        throw (.text (lit "exec: relationship variable " ++ r.var ++ lit " is already bound"))
      let props ← evalProps ctx r.props b (c.sub 0)
      let (src, dst) := if r.direction = .dirIn then (finish.id, start.id) else (start.id, finish.id)
      let id ← createEdge (c.sub 1).toMapOrder type src dst props
      let edge ← getEdge id
      return bindName b r.var (ofEdge edge)
  | _ => throw (.plain "exec: CREATE requires exactly one relationship type")

def createChain (ctx : Context) : List PatternChain → Row → NodeOf Val → Choices → Txn Row
  | [], b, _, _ => return b
  | ch :: rest, b, prev, c => do
      let (next, b) ← createOrReuseNode ctx b ch.node (c.now.sub 0)
      let b ← createRel ctx b ch.rel prev next (c.now.sub 1)
      createChain ctx rest b next c.later

def createPart (ctx : Context) (b : Row) (part : PatternPart) (c : Choices) : Txn Row := do
  let (prev, b) ← createOrReuseNode ctx b part.start (c.sub 0)
  createChain ctx part.chain b prev (c.sub 1)

def createParts (ctx : Context) : List PatternPart → Row → Choices → Txn Row
  | [], b, _ => return b
  | part :: rest, b, c => do
      let b ← createPart ctx b part c.now
      createParts ctx rest b c.later

def refresh (b : Row) (name : Str) (id : UInt64) : Txn Row := do
  let node ← getNode id
  return b.set name (ofNode node)

def applySetMap (name : Str) (id : UInt64) (replace : Bool) (c : Choices) : Val → Txn Unit
  | .null => if replace then setNodeProperties c.toMapOrder id .empty true else return ()
  | .map entries => setNodeProperties c.toMapOrder id (toMap entries) replace
  | v => throw (.text (lit "exec: SET " ++ name ++ lit (" requires a map value, got " ++ v.typeName)))

def applySetClause (ctx : Context) (b : Row) (item : SetClause) (c : Choices) : Txn Row :=
  match item with
  | .setProperty (.var name) key value =>
    match nodeAt b name with
    | none => throw (.text (lit "exec: SET target " ++ name ++ lit " is not a node"))
    | some node => do
        let v ← eval ctx value b c
        setProperty node.id key v
        refresh b name node.id
  | .setProperty _ _ _ => throw (.plain "exec: SET target must be a variable's property")
  | .setLabels name labels =>
    match nodeAt b name with
    | none => throw (.text (lit "exec: SET " ++ name ++ lit ":... is not a node"))
    | some node => do
        addLabels c.toMapOrder node.id labels
        refresh b name node.id
  | .setMap name value replace =>
    match nodeAt b name with
    | none => throw (.text (lit "exec: SET " ++ name ++ lit " = ... is not a node"))
    | some node => do
        let v ← eval ctx value b (c.sub 0)
        applySetMap name node.id replace (c.sub 1) v
        refresh b name node.id

def applySetClauses (ctx : Context) : List SetClause → Row → Choices → Txn Row
  | [], b, _ => return b
  | item :: rest, b, c => do
      let b ← applySetClause ctx b item c.now
      applySetClauses ctx rest b c.later

def applyRemoveClause (b : Row) (item : RemoveClause) (c : Choices) : Txn Row :=
  match item with
  | .removeProperty (.var name) key =>
    match nodeAt b name with
    | none => throw (.text (lit "exec: REMOVE " ++ name ++ lit "." ++ key ++ lit ": not a node"))
    | some node => do
        removeProperty node.id key
        refresh b name node.id
  | .removeProperty _ _ => throw (.plain "exec: REMOVE target must be a variable's property")
  | .removeLabels name labels =>
    match nodeAt b name with
    | none => throw (.text (lit "exec: REMOVE " ++ name ++ lit ":... not a node"))
    | some node => do
        removeLabels c.toMapOrder node.id labels
        refresh b name node.id

def applyRemoveClauses : List RemoveClause → Row → Choices → Txn Row
  | [], b, _ => return b
  | item :: rest, b, c => do
      let b ← applyRemoveClause b item c.now
      applyRemoveClauses rest b c.later

def deleteEntity (detach : Bool) (c : Choices) : Val → Txn Unit
  | .null => return ()
  | .edge e => deleteEdge c.toMapOrder e.id
  | .node n =>
    if detach then detachDeleteNode c.toMapOrder n.id else deleteNode c.toMapOrder n.id
  | v => throw (.plain ("exec: DELETE expects a node or relationship, got " ++ v.typeName))

def deleteAll (ctx : Context) (detach : Bool) (b : Row) : List Expr → Choices → Txn Unit
  | [], _ => return ()
  | e :: rest, c => do
      let v ← eval ctx e b (c.now.sub 0)
      deleteEntity detach (c.now.sub 1) v
      deleteAll ctx detach b rest c.later

/-- A null can neither be matched nor stored. -/
def rejectNullProps (ctx : Context) (kind : String) : List (Str × Txn Val) → Txn Unit
  | [] => return ()
  | (k, p) :: rest => do
      let v ← p
      if isNull v then
        throw (.text (lit ("exec: cannot MERGE " ++ kind ++ " with a null value for property ")
          ++ ctx.lib.quote k))
      rejectNullProps ctx kind rest

def rejectNullChain (ctx : Context) (b : Row) : List PatternChain → Choices → Txn Unit
  | [], _ => return ()
  | ch :: rest, c => do
      rejectNullProps ctx "relationship" (propEvals ctx ch.rel.props b (c.now.sub 0))
      rejectNullProps ctx "node" (propEvals ctx ch.node.props b (c.now.sub 1))
      rejectNullChain ctx b rest c.later

def rejectNullMergeProps (ctx : Context) (b : Row) (part : PatternPart) (c : Choices) : Txn Unit := do
  rejectNullProps ctx "node" (propEvals ctx part.start.props b (c.sub 0))
  rejectNullChain ctx b part.chain (c.sub 1)

/-- The IDs of the labels, if all are known. -/
def resolveLabels : List Str → Txn (Option (List UInt32))
  | [] => return some []
  | name :: rest => do
      match ← Catalog.lookupLabel name with
      | none => return none
      | some id => do
          let more ← resolveLabels rest
          return more.map (id :: ·)

def hasAllLabelIDs (n : NodeOf Val) (ids : List UInt32) : Bool := ids.all (hasLabel n)

def scalarEqualNorm (a b : Val) : Bool :=
  let a := normalize a
  let b := normalize b
  if isNull a || isNull b then isNull a && isNull b else equals a b

def propsMatchEach (held : List (UInt32 × Val)) : List (Str × Txn Val) → Txn Bool
  | [] => return true
  | (k, p) :: rest => do
      let expected ← p
      match ← Catalog.lookupKey k with
      | none => return false
      | some keyID =>
        if scalarEqualNorm ((OrderedMap.find keyID held).getD .null) expected then
          propsMatchEach held rest
        else return false

def propsMatch (ctx : Context) (held : List (UInt32 × Val)) (want : OrderedMap Str Expr) (b : Row)
    (c : Choices) : Txn Bool :=
  propsMatchEach held (propEvals ctx want b c)

/-- Whether a node has the labels and the properties of a pattern node. -/
def nodeMatches (ctx : Context) (b : Row) (n : NodePattern) (labelIDs : List UInt32) (node : Node)
    (c : Choices) : Txn Bool :=
  if hasAllLabelIDs (nodeOf node) labelIDs then propsMatch ctx node.props.entries n.props b c
  else return false

/-- The rows of the given nodes that match a pattern node. -/
def mergeCandidates (ctx : Context) (b : Row) (n : NodePattern) (labelIDs : List UInt32)
    : List UInt64 → Choices → Txn (List Row)
  | [], _ => return []
  | id :: rest, c => do
      let node ← getNode id
      let ok ← nodeMatches ctx b n labelIDs node c.now
      let more ← mergeCandidates ctx b n labelIDs rest c.later
      return if ok then bindName b n.var (ofNode node) :: more else more

def matchNodes (ctx : Context) (b : Row) (n : NodePattern) (c : Choices) : Txn (List Row) := do
  match ← resolveLabels n.labels with
  | none => return []
  | some [] => do
      let ids ← allNodes
      mergeCandidates ctx b n [] ids c
  | some (first :: more) => do
      let ids ← nodesByLabel first
      mergeCandidates ctx b n (first :: more) ids c

/-- The rows of a merged node, and whether they were matched. -/
def mergeNode (ctx : Context) (b : Row) (n : NodePattern) (c : Choices) : Txn (List Row × Bool) := do
  let found ← matchNodes ctx b n (c.sub 0)
  if found.isEmpty then do
    let (_, b) ← createOrReuseNode ctx b n (c.sub 1)
    return ([b], false)
  else return (found, true)

/-- The rows of the given edges that match the relationship and the end of a pattern. -/
def mergeEdges (ctx : Context) (b : Row) (rel : RelPattern) (finish : NodePattern)
    (bound : Option (NodeOf Val)) (labelIDs : List UInt32)
    : List EdgeRef → Choices → Txn (List Row)
  | [], _ => return []
  | r :: rest, c => do
      let otherID := if rel.direction = .dirIn then r.src else r.dst
      if bound.any (fun n => n.id ≠ otherID) then
        mergeEdges ctx b rel finish bound labelIDs rest c.later
      else do
        let other ← getNode otherID
        let ends ← (if bound.isSome then pure true
          else nodeMatches ctx b finish labelIDs other (c.now.sub 0))
        if !ends then mergeEdges ctx b rel finish bound labelIDs rest c.later
        else do
          let edge ← getEdge r.id
          let ok ← propsMatch ctx edge.props.entries rel.props b (c.now.sub 1)
          let more ← mergeEdges ctx b rel finish bound labelIDs rest c.later
          let row := bindName (bindName b rel.var (ofEdge edge)) finish.var (ofNode other)
          return if ok then row :: more else more

/-- The rows of the edges at a node that match the relationship and the end of a pattern. -/
def matchEdges (ctx : Context) (b : Row) (rel : RelPattern) (finish : NodePattern)
    (bound : Option (NodeOf Val)) (type : Str) (startID : UInt64) (c : Choices) : Txn (List Row) := do
  let labels ← resolveLabels finish.labels
  let found ← Catalog.lookupType type
  match found, labels with
  | some typeID, some labelIDs => do
      let refs ← (if rel.direction = .dirOut then outEdges startID typeID else inEdges startID typeID)
      mergeEdges ctx b rel finish bound labelIDs refs c
  | _, _ => return []

/-- The end of a relationship to create: the bound node, or a new one. -/
def mergeEnd (ctx : Context) (b : Row) (finish : NodePattern) (bound : Option (NodeOf Val))
    (c : Choices) : Txn (NodeOf Val × Row) :=
  match bound with
  | some n => return (n, b)
  | none => do
      let n ← makeNode ctx b finish c
      return (n, bindName b finish.var (.node n))

def mergeRel (ctx : Context) (b : Row) (start : NodePattern) (ch : PatternChain) (c : Choices)
    : Txn (List Row × Bool) := do
  let rel := ch.rel
  let finish := ch.node
  if rel.direction = .dirBoth then throw (.plain "exec: MERGE requires a directed relationship")
  match rel.types with
  | [type] => do
      if rel.varLength then
        throw (.plain "exec: MERGE does not support variable-length relationships")
      if start.var = [] then
        throw (.plain "exec: MERGE start node must reference a bound variable")
      match nodeAt b start.var with
      | none =>
        throw (.text (lit "exec: MERGE start variable " ++ start.var ++ lit " is not bound"))
      | some startNode => do
          let bound := if finish.var = [] then none else nodeAt b finish.var
          let found ← matchEdges ctx b rel finish bound type startNode.id (c.sub 0)
          if found.isEmpty then do
            let (last, nb) ← mergeEnd ctx b finish bound (c.sub 1)
            let nb ← createRel ctx nb rel startNode last (c.sub 2)
            return ([nb], false)
          else return (found, true)
  | _ => throw (.plain "exec: MERGE requires exactly one relationship type")

def applySetRows (ctx : Context) (clauses : List SetClause) : List Row → Choices → Txn (List Row)
  | [], _ => return []
  | b :: rest, c => do
      let b ← applySetClauses ctx clauses b c.now
      let more ← applySetRows ctx clauses rest c.later
      return b :: more

def mergePart (ctx : Context) (part : PatternPart) (b : Row) (c : Choices) : Txn (List Row × Bool) :=
  match part.chain with
  | [] => mergeNode ctx b part.start c
  | [ch] => mergeRel ctx b part.start ch c
  | _ => throw (.plain "exec: MERGE with more than one relationship is not yet supported")

def mergeRun (ctx : Context) (m : Merge) (b : Row) (c : Choices) : Txn (List Row) := do
  rejectNullMergeProps ctx b m.part (c.sub 0)
  let (rows, wasMatch) ← mergePart ctx m.part b (c.sub 1)
  applySetRows ctx (if wasMatch then m.onMatch else m.onCreate) rows (c.sub 2)

/-- An index as DROP and SHOW see it; for a relationship index the label is its type. -/
structure IndexInfo where
  name : Str
  label : Str
  prop : Str
  rel : Bool
  labelID : UInt32
  keyID : UInt32

def describe (rel : Bool) (nameOf : Catalog.IndexDef → Txn (Str × Str × Str))
    : List Catalog.IndexDef → Txn (List IndexInfo)
  | [] => return []
  | d :: rest => do
      let (label, prop, name) ← nameOf d
      let more ← describe rel nameOf rest
      return ⟨name, label, prop, rel, d.owner, d.propKey⟩ :: more

def listAllIndexes : Txn (List IndexInfo) := do
  let defs ← Catalog.listIndexes
  let nodes ← describe false Catalog.indexName defs
  let rdefs ← Catalog.listRelIndexes
  let rels ← describe true Catalog.relIndexName rdefs
  return nodes ++ rels

def findAnyIndex (name : Str) : Txn (Option IndexInfo) := do
  let all ← listAllIndexes
  return all.find? (fun ix => ix.name = name)

def refuseIndexName (ctx : Context) (name : Str) : Txn Unit := do
  if name ≠ [] then
    if (← findAnyIndex name).isSome then
      throw (.text (lit "exec: an index named " ++ ctx.lib.quote name ++ lit " already exists"))

def createRelIndex (ctx : Context) (x : CreateIndex) : Txn Unit := do
  let typeID ← Catalog.internType x.label
  let keyID ← Catalog.internKey x.property
  match ← Catalog.getRelIndex typeID keyID with
  | some d => do
      let (_, _, existing) ← Catalog.relIndexName d
      if x.name ≠ [] && x.name ≠ existing then
        throw (.text (lit "exec: an index on ()-[:" ++ x.label ++ lit "]-()(" ++ x.property
          ++ lit ") already exists as " ++ ctx.lib.quote existing))
  | none => do
      refuseIndexName ctx x.name
      buildRelIndex typeID keyID x.name

def createIndexRun (ctx : Context) (x : CreateIndex) : Txn Unit := do
  if x.rel then createRelIndex ctx x
  else do
    let labelID ← Catalog.internLabel x.label
    let keyID ← Catalog.internKey x.property
    if ← Catalog.hasIndex labelID keyID then
      if x.name ≠ [] then do
        let d ← Catalog.getIndex labelID keyID
        let (_, _, existing) ← Catalog.indexName (d.getD ⟨0, 0, []⟩)
        if existing ≠ x.name then
          throw (.text (lit "exec: an index on :" ++ x.label ++ lit "(" ++ x.property
            ++ lit ") already exists as " ++ ctx.lib.quote existing))
    else do
      refuseIndexName ctx x.name
      buildIndex labelID keyID x.name

def dropIndexRun (ctx : Context) (name : Str) (ifExists : Bool) : Txn Unit := do
  match ← findAnyIndex name with
  | none =>
    if ifExists then return ()
    else throw (.text (lit "exec: no index named " ++ ctx.lib.quote name))
  | some ix =>
    if ix.rel then dropRelIndexEntries ix.labelID ix.keyID
    else
      match ← Catalog.getConstraint ix.labelID ix.keyID with
      | some d => do
          let (_, _, cname) ← Catalog.constraintName d
          throw (.text (lit "exec: index " ++ ctx.lib.quote name ++ lit " backs constraint "
            ++ ctx.lib.quote cname ++ lit "; drop the constraint instead"))
      | none => dropIndexEntries ix.labelID ix.keyID

def textRow (fields : List (String × Str)) : Row :=
  fields.foldl (fun b f => b.set (lit f.1) (.str f.2)) .empty

/-- `sort.Slice` of rows by their name. -/
def byName {α : Type} (name : α → Str) (l : List α) : List α :=
  l.insertionSort (fun a b => name a ≤ name b)

def indexRow (ix : IndexInfo) : Row :=
  textRow [("name", ix.name), ("label", ix.label), ("property", ix.prop),
    ("entity", if ix.rel then lit "RELATIONSHIP" else lit "NODE")]

def indexRows : Txn (List Row) := do
  let all ← listAllIndexes
  return (byName IndexInfo.name all).map indexRow

def namedConstraints : List Catalog.ConstraintDef
    → Txn (List (Catalog.ConstraintDef × Str × Str × Str))
  | [] => return []
  | d :: rest => do
      let names ← Catalog.constraintName d
      let more ← namedConstraints rest
      return (d, names) :: more

/-- The first of the constraints that is known by a name. -/
def findNamed (name : Str) : List Catalog.ConstraintDef → Txn (Option Catalog.ConstraintDef)
  | [] => return none
  | d :: rest => do
      let (_, _, n) ← Catalog.constraintName d
      if n = name then return some d else findNamed name rest

def findConstraint (name : Str) : Txn (Option Catalog.ConstraintDef) := do
  let defs ← Catalog.listConstraints
  findNamed name defs

def createConstraintRun (ctx : Context) (name label property : Str) : Txn Unit := do
  let labelID ← Catalog.internLabel label
  let keyID ← Catalog.internKey property
  match ← Catalog.getConstraint labelID keyID with
  | some d => do
      let (_, _, existing) ← Catalog.constraintName d
      if name ≠ [] && name ≠ existing then
        throw (.text (lit "exec: a constraint on :" ++ label ++ lit "(" ++ property
          ++ lit ") already exists as " ++ ctx.lib.quote existing))
  | none => do
      if name ≠ [] then
        if (← findConstraint name).isSome then
          throw (.text (lit "exec: a constraint named " ++ ctx.lib.quote name
            ++ lit " already exists"))
      addUniqueConstraint labelID keyID name

def dropConstraintRun (ctx : Context) (name : Str) (ifExists : Bool) : Txn Unit := do
  match ← findConstraint name with
  | none =>
    if ifExists then return ()
    else throw (.text (lit "exec: no constraint named " ++ ctx.lib.quote name))
  | some d => dropUniqueConstraint d.label d.propKey

def constraintRows : Txn (List Row) := do
  let defs ← Catalog.listConstraints
  let named ← namedConstraints defs
  return (byName (fun e => e.2.2.2) named).map (fun (_, label, prop, name) =>
    textRow [("name", name), ("label", label), ("property", prop), ("type", lit "UNIQUE")])

end Intreccio.Exec
