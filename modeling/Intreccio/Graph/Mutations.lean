import Intreccio.Foundation.MapOrder
import Intreccio.Graph.Entries

/-! The mutations of the graph layer (`internal/graph/crud.go`).
A Go map is visited in an unspecified order, so each function takes the order of its loops.
-/

namespace Intreccio.Graph

open Kv Words Codec

abbrev Props := OrderedMap UInt32 Val

def isNull : Val → Bool
  | .null => true
  | _ => false

/-- The IDs of the labels that are not in `seen`, each once, in the order they are named. -/
def internLabels (seen : List UInt32) : List Str → Txn (List UInt32)
  | [] => return []
  | name :: rest => do
      let id ← Catalog.internLabel name
      if id ∈ seen then internLabels seen rest
      else
        let more ← internLabels (id :: seen) rest
        return id :: more

/-- The named values by key ID; with `skipNull` a null is an absent property. -/
def internEntries (skipNull : Bool) : List (Str × Val) → Props → Txn Props
  | [], out => return out
  | (k, v) :: rest, out =>
    if skipNull && isNull v then internEntries skipNull rest out
    else do
      let id ← Catalog.internKey k
      internEntries skipNull rest (out.set id (normalize v))

def internProps (o : MapOrder) (props : OrderedMap Str Val) : Txn Props :=
  internEntries true (o.range props.entries) .empty

def putNodeRecord (id : UInt64) (rec : NodeRecord) : Txn Unit := do
  let b ← Program.ofExcept (encodeNode rec)
  Program.write (nodeKey id) b

def putNodeIndexes (o : MapOrder) (nodeID : UInt64) (rec : NodeRecord) : Txn Unit :=
  Program.each rec.labels.zipIdx (fun (l, i) => do
    Program.write (labelKey l nodeID) []
    Program.each ((o.sub i).range rec.props.entries) (fun (k, v) => putPropEntry l k v nodeID))

def delNodeIndexes (o : MapOrder) (nodeID : UInt64) (rec : NodeRecord) : Txn Unit :=
  Program.each rec.labels.zipIdx (fun (l, i) => do
    Program.erase (labelKey l nodeID)
    Program.each ((o.sub i).range rec.props.entries) (fun (k, v) => delPropEntry l k v nodeID))

/-- Only the first key of each range is asked for, outgoing edges first. -/
def hasIncidentEdges (nodeID : UInt64) : Txn Bool := do
  if ← Program.occupied (under (outPrefixAll nodeID)) then return true
  if ← Program.occupied (under (inPrefixAll nodeID)) then return true
  return false

def createNode (o : MapOrder) (labels : List Str) (props : OrderedMap Str Val) : Txn UInt64 := do
  let labelIDs ← internLabels [] labels
  let p ← internProps (o.sub 0) props
  let id ← Catalog.nextNodeID
  let record : NodeRecord := ⟨labelIDs, p⟩
  putNodeRecord id record
  putNodeIndexes (o.sub 1) id record
  return id

/-- Wrap the error of a read of an edge's end. -/
def endpoint (what : String) (id : UInt64) : Txn Unit :=
  tryCatch (do let _ ← getNode id) (fun e =>
    throw (.because ("edge " ++ what ++ " " ++ toString id.toNat) e))

def createEdge (o : MapOrder) (typ : Str) (src dst : UInt64) (props : OrderedMap Str Val)
    : Txn UInt64 := do
  endpoint "src" src
  endpoint "dst" dst
  let typeID ← Catalog.internType typ
  let p ← internProps (o.sub 0) props
  let id ← Catalog.nextEdgeID
  let b ← Program.ofExcept (encodeEdge ⟨typeID, src, dst, p⟩)
  Program.write (edgeKey id) b
  Program.write (outKey src typeID dst id) []
  Program.write (inKey dst typeID src id) []
  Program.each ((o.sub 1).range p.entries) (fun (k, v) => putRelPropEntry typeID k v id)
  return id

def setProperty (nodeID : UInt64) (key : Str) (value : Val) : Txn Unit := do
  let node ← getNode nodeID
  let keyID ← Catalog.internKey key
  let value := normalize value
  let old := node.props.get keyID
  Program.each node.labels (fun l => do
    match old with
    | some v => delPropEntry l keyID v nodeID
    | none => pure ()
    putPropEntry l keyID value nodeID)
  let props := if isNull value then node.props.delete keyID else node.props.set keyID value
  putNodeRecord nodeID ⟨node.labels, props⟩

def removeProperty (nodeID : UInt64) (key : Str) : Txn Unit := do
  let node ← getNode nodeID
  match ← Catalog.lookupKey key with
  | none => return ()
  | some keyID =>
    match node.props.get keyID with
    | none => return ()
    | some old =>
      Program.each node.labels (fun l => delPropEntry l keyID old nodeID)
      putNodeRecord nodeID ⟨node.labels, node.props.delete keyID⟩

/-- Whether a property keeps its value, so that its entries stay. -/
def keeps (desired : Props) (keyID : UInt32) (old : Val) : Bool :=
  match desired.get keyID with
  | some new => sameValue new old
  | none => false

/-- The merge loop: entries of values that change are removed, and the map is updated. -/
def mergeEntries (nodeID : UInt64) (labels : List UInt32)
    : List (UInt32 × Val) → Props → Txn Props
  | [], props => return props
  | (keyID, new) :: rest, props => do
      match props.get keyID with
      | some old =>
        if !sameValue old new then
          Program.each labels (fun l => delPropEntry l keyID old nodeID)
      | none => pure ()
      mergeEntries nodeID labels rest
        (if isNull new then props.delete keyID else props.set keyID new)

/-- The entries of `desired` that are not null. -/
def nonNull (entries : List (UInt32 × Val)) : Props :=
  entries.foldl (fun m e => if isNull e.2 then m else m.set e.1 e.2) .empty

def setNodeProperties (o : MapOrder) (nodeID : UInt64) (props : OrderedMap Str Val)
    (replace : Bool) : Txn Unit := do
  let node ← getNode nodeID
  let desired ← internEntries false ((o.sub 0).range props.entries) .empty
  let updated ←
    if replace then do
      Program.each ((o.sub 1).range node.props.entries) (fun (keyID, old) =>
        if keeps desired keyID old then pure ()
        else Program.each node.labels (fun l => delPropEntry l keyID old nodeID))
      pure (nonNull ((o.sub 2).range desired.entries))
    else mergeEntries nodeID node.labels ((o.sub 3).range desired.entries) node.props
  Program.each ((o.sub 4).range updated.entries) (fun (keyID, v) =>
    Program.each node.labels (fun l => putPropEntry l keyID v nodeID))
  putNodeRecord nodeID ⟨node.labels, updated⟩

def addLabels (o : MapOrder) (nodeID : UInt64) (labels : List Str) : Txn Unit := do
  if labels.isEmpty then return ()
  let node ← getNode nodeID
  let added ← internLabels node.labels labels
  if added.isEmpty then return ()
  putNodeIndexes o nodeID ⟨added, node.props⟩
  putNodeRecord nodeID ⟨node.labels ++ added, node.props⟩

/-- The IDs of the labels that have one. -/
def lookupLabels : List Str → Txn (List UInt32)
  | [] => return []
  | name :: rest => do
      let found ← Catalog.lookupLabel name
      let more ← lookupLabels rest
      return found.toList ++ more

def removeLabels (o : MapOrder) (nodeID : UInt64) (labels : List Str) : Txn Unit := do
  if labels.isEmpty then return ()
  let node ← getNode nodeID
  let toRemove ← lookupLabels labels
  if toRemove.isEmpty then return ()
  delNodeIndexes o nodeID ⟨node.labels.filter (· ∈ toRemove), node.props⟩
  putNodeRecord nodeID ⟨node.labels.filter (· ∉ toRemove), node.props⟩

def deleteEdge (o : MapOrder) (id : UInt64) : Txn Unit := do
  let e ← getEdge id
  Program.erase (outKey e.src e.type e.dst id)
  Program.erase (inKey e.dst e.type e.src id)
  Program.each (o.range e.props.entries) (fun (k, v) => delRelPropEntry e.type k v id)
  Program.erase (edgeKey id)

def deleteNode (o : MapOrder) (id : UInt64) : Txn Unit := do
  let node ← getNode id
  if ← hasIncidentEdges id then throw .nodeHasEdges
  delNodeIndexes o id node.toNodeRecord
  Program.erase (nodeKey id)

def detachDeleteNode (o : MapOrder) (id : UInt64) : Txn Unit := do
  let _ ← getNode id
  let out ← outEdges id 0
  let inc ← inEdges id 0
  let edgeIDs := ((out ++ inc).map EdgeRef.id).dedup
  Program.each ((o.sub 0).range edgeIDs).zipIdx (fun (eid, i) => deleteEdge ((o.sub 1).sub i) eid)
  deleteNode (o.sub 2) id

end Intreccio.Graph
