import Intreccio.Codec.Keys
import Intreccio.Codec.Records
import Intreccio.Catalog.Registries

/-! Values and reads of the graph layer (`internal/graph/model.go`, `values.go`, and the reads
of `crud.go` and `traversal.go`).
-/

namespace Intreccio.Graph

open Kv Words Codec

/-- A node with its ID; labels and property keys are dictionary IDs. -/
structure Node extends NodeRecord where
  id : UInt64

structure Edge extends EdgeRecord where
  id : UInt64

/-- An edge as an adjacency key gives it. -/
structure EdgeRef where
  id : UInt64
  type : UInt32
  src : UInt64
  dst : UInt64
deriving DecidableEq

def normalize : Val → Val
  | .goInt i => .int i
  | v => v

def isIndexable (v : Val) : Bool := v.scalar?.isSome

/-- Same type and same stored value, floats by their bits; never true of lists and maps. -/
def sameValue (a b : Val) : Bool :=
  match (normalize a).scalar? with
  | some c => (normalize b).scalar? = some c
  | none => false

/-- The form an owner key is built from: an integral float in the `int64` range counts as the
integer, and NaN has none.
-/
def uniqueValue : Scalar → Option Scalar
  | .float f =>
    if f.isNaN then none
    else if f.isInteger ∧ -(2 ^ 63 : Int) ≤ f.truncate ∧ f.truncate < 2 ^ 63 then
      some (.int (Int64.ofInt f.truncate))
    else some (.float f)
  | c => some c

def getNode (id : UInt64) : Txn Node := do
  match ← Program.lookup (nodeKey id) with
  | none => throw .nodeNotFound
  | some b =>
    let record ← Program.ofExcept ((decodeNode b).mapError
      (.because ("graph: decode node " ++ toString id.toNat)))
    return ⟨record, id⟩

def getEdge (id : UInt64) : Txn Edge := do
  match ← Program.lookup (edgeKey id) with
  | none => throw .edgeNotFound
  | some b =>
    let record ← Program.ofExcept ((decodeEdge b).mapError
      (.because ("graph: decode edge " ++ toString id.toNat)))
    return ⟨record, id⟩

/-- Parse the scanned keys in order, stopping at the first malformed one. -/
def parseKeys {α : Type} (parse : Bytes → Except Err α) : List (Bytes × Bytes) → Except Err (List α)
  | [] => .ok []
  | (k, _) :: rest => do
      let a ← parse k
      let more ← parseKeys parse rest
      return a :: more

def allNodes : Txn (List UInt64) := do
  let found ← scan nodePrefix
  Program.ofExcept (parseKeys nodeIDFromKey found)

def nodesByLabel (labelID : UInt32) : Txn (List UInt64) := do
  let found ← scan (labelPrefix labelID)
  Program.ofExcept (parseKeys (fun k => Prod.snd <$> parseLabelKey k) found)

def outRef (key : Bytes) : Except Err EdgeRef := do
  let (src, typ, dst, edge) ← parseOutKey key
  return ⟨edge, typ, src, dst⟩

def inRef (key : Bytes) : Except Err EdgeRef := do
  let (dst, typ, src, edge) ← parseInKey key
  return ⟨edge, typ, src, dst⟩

/-- Type 0 stands for every type. -/
def outEdges (nodeID : UInt64) (typeID : UInt32) : Txn (List EdgeRef) := do
  let found ← scan (if typeID ≠ 0 then outPrefix nodeID typeID else outPrefixAll nodeID)
  Program.ofExcept (parseKeys outRef found)

def inEdges (nodeID : UInt64) (typeID : UInt32) : Txn (List EdgeRef) := do
  let found ← scan (if typeID ≠ 0 then inPrefix nodeID typeID else inPrefixAll nodeID)
  Program.ofExcept (parseKeys inRef found)

end Intreccio.Graph
