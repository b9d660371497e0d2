import Intreccio.Graph.Mutations

/-! Creation and removal of indexes and constraints (`internal/graph/unique.go`,
`relindex.go`, and `DropIndexEntries` of `crud.go`).
-/

namespace Intreccio.Graph

open Kv Words Codec

/-- Call `fn` for every node with the label whose value at `propKey` is indexable. -/
def forEachLabelValue (label propKey : UInt32) (fn : UInt64 → Scalar → Txn Unit) : Txn Unit := do
  let nodeIDs ← nodesByLabel label
  Program.each nodeIDs (fun id => do
    let node ← getNode id
    match (node.props.get propKey).bind Val.scalar? with
    | some c => fn id c
    | none => return ())

def buildIndex (label propKey : UInt32) (name : Str) : Txn Unit := do
  Catalog.addNamedIndex label propKey name
  forEachLabelValue label propKey (fun nodeID c => do
    let pk ← Program.ofExcept (Codec.propKey label propKey c.toVal nodeID)
    Program.write pk [])

def dropIndexEntries (labelID keyID : UInt32) : Txn Unit := do
  deletePrefix (propIndexPrefix labelID keyID)
  Catalog.removeIndex labelID keyID

def addUniqueConstraint (label propKey : UInt32) (name : Str) : Txn Unit := do
  let hasIndex ← Catalog.hasIndex label propKey
  if !hasIndex then buildIndex label propKey []
  Catalog.requireUniqueFormat
  Catalog.addConstraint ⟨label, propKey, name, !hasIndex⟩
  forEachLabelValue label propKey (fun nodeID c => claimValue label propKey c nodeID)

/-- Dropping a constraint that does not exist does nothing. -/
def dropUniqueConstraint (label propKey : UInt32) : Txn Unit := do
  match ← Catalog.getConstraint label propKey with
  | none => return ()
  | some d =>
    deletePrefix (uniquePrefix label propKey)
    Catalog.removeConstraint label propKey
    if d.ownsIndex then dropIndexEntries label propKey

/-- The edges of a type among the scanned records, in ID order. -/
def edgesOfType (typeID : UInt32) : List (Bytes × Bytes) → Except Err (List Edge)
  | [] => .ok []
  | (k, b) :: rest => do
      let record ← decodeEdge b
      if record.type = typeID then
        let id ← edgeIDFromKey k
        let more ← edgesOfType typeID rest
        return ⟨record, id⟩ :: more
      else edgesOfType typeID rest

def scanEdgesOfType (typeID : UInt32) (fn : Edge → Txn Unit) : Txn Unit := do
  let found ← scan edgePrefix
  let edges ← Program.ofExcept (edgesOfType typeID found)
  Program.each edges fn

def buildRelIndex (typeID propKey : UInt32) (name : Str) : Txn Unit := do
  Catalog.requireRelIndexFormat
  Catalog.addRelIndex typeID propKey name
  scanEdgesOfType typeID (fun e =>
    match (e.props.get propKey).bind Val.scalar? with
    | some c => do
        let k ← Program.ofExcept (relPropKey typeID propKey c.toVal e.id)
        Program.write k []
    | none => return ())

def dropRelIndexEntries (typeID propKey : UInt32) : Txn Unit := do
  deletePrefix (relPropIndexPrefix typeID propKey)
  Catalog.removeRelIndex typeID propKey

end Intreccio.Graph
