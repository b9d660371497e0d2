import Intreccio.Catalog.Registries

/-! Listings of the registries, and the names that indexes and constraints are known by
(`internal/catalog/catalog.go`).
-/

namespace Intreccio.Catalog

open Kv Words

/-- A registered index: its label, or its type for a relationship index, and its property. An
empty name is one that was not given.
-/
structure IndexDef where
  owner : UInt32
  propKey : UInt32
  name : Str
deriving DecidableEq

def parseRegistryKey (what : String) (key : Bytes) : Except Err (UInt32 × UInt32) :=
  if key.length ≠ 9 then
    .error (.plain ("catalog: malformed " ++ what ++ " (len=" ++ toString key.length ++ ")"))
  else .ok (uint32OfBytes ((key.drop 1).take 4), uint32OfBytes (key.drop 5))

/-- The definitions of the scanned registry entries, stopping at the first malformed one. -/
def parseEntries {α : Type} (what : String) (decode : UInt32 → UInt32 → Bytes → Except Err α)
    : List (Bytes × Bytes) → Except Err (List α)
  | [] => .ok []
  | (k, v) :: rest => do
      let (owner, propKey) ← parseRegistryKey what k
      let d ← decode owner propKey v
      let more ← parseEntries what decode rest
      return d :: more

/-- The name that was given, or one made of the two names. -/
def knownName (stem : String) (owner prop given : Str) : Str :=
  if given = [] then lit stem ++ owner ++ lit "_" ++ prop else given

def nameOf (stem : String) (ownerName : UInt32 → Txn Str) (owner propKey : UInt32) (given : Str)
    : Txn (Str × Str × Str) := do
  let label ← ownerName owner
  let prop ← keyName propKey
  return (label, prop, knownName stem label prop given)

def getIndex (label propKey : UInt32) : Txn (Option IndexDef) := do
  return (← Program.lookup (indexKey label propKey)).map (IndexDef.mk label propKey)

def indexName (d : IndexDef) : Txn (Str × Str × Str) :=
  nameOf "index_" labelName d.owner d.propKey d.name

def listIndexes : Txn (List IndexDef) := do
  let found ← scan [tagIndexReg]
  Program.ofExcept (parseEntries "index registry key" (fun l k v => .ok ⟨l, k, v⟩) found)

def constraintName (d : ConstraintDef) : Txn (Str × Str × Str) :=
  nameOf "constraint_" labelName d.label d.propKey d.name

def listConstraints : Txn (List ConstraintDef) := do
  let found ← scan [tagConstraint]
  Program.ofExcept (parseEntries "constraint key" decodeConstraint found)

def getRelIndex (typeID propKey : UInt32) : Txn (Option IndexDef) := do
  return (← Program.lookup (relIndexKey typeID propKey)).map (IndexDef.mk typeID propKey)

def relIndexName (d : IndexDef) : Txn (Str × Str × Str) :=
  nameOf "rel_index_" typeName d.owner d.propKey d.name

def listRelIndexes : Txn (List IndexDef) := do
  let found ← scan [tagRelIndex]
  Program.ofExcept (parseEntries "relationship index key" (fun t k v => .ok ⟨t, k, v⟩) found)

end Intreccio.Catalog
