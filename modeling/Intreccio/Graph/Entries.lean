import Intreccio.Graph.Reads

/-! Index entries (`internal/graph/unique.go`, `relindex.go`): every `p`, `u` and `r` key is
written and removed through these functions.
-/

namespace Intreccio.Graph

open Kv Words Codec

def valueOwner (uk : Bytes) : Txn (Option UInt64) := do
  match ← Program.lookup uk with
  | none => return none
  | some v =>
    if v.length ≠ 8 then
      throw (.plain ("graph: malformed unique owner entry (len=" ++ toString v.length ++ ")"))
    return some (uint64OfBytes v)

/-- The violation error, with the names read back from the dictionaries. -/
def violation (label propKey : UInt32) (value : Scalar) : Txn Unit := do
  let l ← Catalog.labelName label
  let k ← Catalog.keyName propKey
  throw (.constraintViolation l k value)

def claimValue (label propKey : UInt32) (value : Scalar) (nodeID : UInt64) : Txn Unit := do
  match uniqueValue value with
  | none => return ()
  | some canon =>
    let uk ← Program.ofExcept (uniqueKey label propKey canon.toVal)
    match ← valueOwner uk with
    | some owner => if owner ≠ nodeID then violation label propKey value
    | none => Program.write uk (uint64Bytes nodeID)

/-- Remove the owner entry of a value if the node holds it. -/
def releaseValue (label propKey : UInt32) (value : Scalar) (nodeID : UInt64) : Txn Unit := do
  match uniqueValue value with
  | none => return ()
  | some canon =>
    let uk ← Program.ofExcept (uniqueKey label propKey canon.toVal)
    match ← valueOwner uk with
    | some owner => if owner = nodeID then Program.erase uk
    | none => return ()

def putPropEntry (label propKey : UInt32) (value : Val) (nodeID : UInt64) : Txn Unit := do
  match value.scalar? with
  | none => return ()
  | some c =>
    if ← Catalog.hasIndex label propKey then
      let pk ← Program.ofExcept (Codec.propKey label propKey value nodeID)
      Program.write pk []
      if ← Catalog.hasUnique label propKey then
        claimValue label propKey c nodeID

def delPropEntry (label propKey : UInt32) (value : Val) (nodeID : UInt64) : Txn Unit := do
  match value.scalar? with
  | none => return ()
  | some c =>
    if ← Catalog.hasIndex label propKey then
      let pk ← Program.ofExcept (Codec.propKey label propKey value nodeID)
      Program.erase pk
      if ← Catalog.hasUnique label propKey then
        releaseValue label propKey c nodeID

def putRelPropEntry (typeID propKey : UInt32) (value : Val) (edge : UInt64) : Txn Unit := do
  if isIndexable value then
    if ← Catalog.hasRelIndex typeID propKey then
      let k ← Program.ofExcept (relPropKey typeID propKey value edge)
      Program.write k []

def delRelPropEntry (typeID propKey : UInt32) (value : Val) (edge : UInt64) : Txn Unit := do
  if isIndexable value then
    if ← Catalog.hasRelIndex typeID propKey then
      let k ← Program.ofExcept (relPropKey typeID propKey value edge)
      Program.erase k

/-- Delete every key that starts with `stem`. -/
def deletePrefix (stem : Bytes) : Txn Unit := do
  let found ← scan stem
  Program.each found (fun entry => Program.erase entry.1)

end Intreccio.Graph
