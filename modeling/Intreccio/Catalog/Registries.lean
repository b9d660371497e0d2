import Intreccio.Catalog.Dictionaries

/-! The registries of indexes and constraints (`internal/catalog/catalog.go`) and the on-disk
format marker (`internal/catalog/format.go`).
-/

namespace Intreccio.Catalog

open Kv Words

def tagIndexReg : UInt8 := 'X'.toUInt8
def tagConstraint : UInt8 := 'U'.toUInt8
def tagRelIndex : UInt8 := 'Y'.toUInt8
def tagFormat : UInt8 := 'F'.toUInt8

def registryKey (tag : UInt8) (owner propKey : UInt32) : Bytes :=
  tag :: (uint32Bytes owner ++ uint32Bytes propKey)

def registered (key : Bytes) : Txn Bool := do
  return (← Program.lookup key).isSome

def indexKey (label propKey : UInt32) : Bytes := registryKey tagIndexReg label propKey

def addNamedIndex (label propKey : UInt32) (name : Str) : Txn Unit :=
  Program.write (indexKey label propKey) name

def removeIndex (label propKey : UInt32) : Txn Unit := Program.erase (indexKey label propKey)

def hasIndex (label propKey : UInt32) : Txn Bool := registered (indexKey label propKey)

/-- A unique constraint; `ownsIndex` when it created its backing index. -/
structure ConstraintDef where
  label : UInt32
  propKey : UInt32
  name : Str
  ownsIndex : Bool
deriving DecidableEq

def constraintKey (label propKey : UInt32) : Bytes := registryKey tagConstraint label propKey

def addConstraint (d : ConstraintDef) : Txn Unit :=
  Program.write (constraintKey d.label d.propKey) ((if d.ownsIndex then 1 else 0) :: d.name)

def decodeConstraint (label propKey : UInt32) (v : Bytes) : Except Err ConstraintDef :=
  match v with
  | [] => .error (.plain "catalog: malformed constraint entry")
  | flags :: name => .ok ⟨label, propKey, name, flags &&& 1 ≠ 0⟩

def getConstraint (label propKey : UInt32) : Txn (Option ConstraintDef) := do
  match ← Program.lookup (constraintKey label propKey) with
  | some v => return some (← Program.ofExcept (decodeConstraint label propKey v))
  | none => return none

def hasUnique (label propKey : UInt32) : Txn Bool := do
  return (← getConstraint label propKey).isSome

def removeConstraint (label propKey : UInt32) : Txn Unit :=
  Program.erase (constraintKey label propKey)

def relIndexKey (typeID propKey : UInt32) : Bytes := registryKey tagRelIndex typeID propKey

def addRelIndex (typeID propKey : UInt32) (name : Str) : Txn Unit :=
  Program.write (relIndexKey typeID propKey) name

def hasRelIndex (typeID propKey : UInt32) : Txn Bool := registered (relIndexKey typeID propKey)

def removeRelIndex (typeID propKey : UInt32) : Txn Unit :=
  Program.erase (relIndexKey typeID propKey)

def formatVersion : UInt32 := 1
def formatUnique : UInt32 := 2
def formatRelIndex : UInt32 := 3

def formatKey : Bytes := [tagFormat]

/-- Raise the marker to `v`; a malformed marker is overwritten as a missing one is. -/
def requireFormat (v : UInt32) : Txn Unit := do
  let cur := (← Program.lookup formatKey).getD []
  if cur.length = 4 ∧ uint32OfBytes cur ≥ v then return ()
  Program.write formatKey (uint32Bytes v)

def maxFormat : UInt32 := formatRelIndex

/-- Write the marker on first use, and refuse a database of a version this build does not read. -/
def ensureFormat : Txn Unit := do
  match ← Program.lookup formatKey with
  | none => Program.write formatKey (uint32Bytes formatVersion)
  | some cur =>
    if cur.length ≠ 4 then
      throw (.plain ("catalog: malformed format marker (len=" ++ toString cur.length ++ ")"))
    let v := uint32OfBytes cur
    if v < formatVersion ∨ maxFormat < v then
      throw (.wrap (lit ("database is version " ++ toString v.toNat ++ ", this build supports "
        ++ toString formatVersion.toNat ++ " to " ++ toString maxFormat.toNat)) .formatVersion)

def requireUniqueFormat : Txn Unit := requireFormat formatUnique

def requireRelIndexFormat : Txn Unit := requireFormat formatRelIndex

end Intreccio.Catalog
