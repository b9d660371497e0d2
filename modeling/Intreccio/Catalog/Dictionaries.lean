import Intreccio.Storage

/-! Name dictionaries and ID counters (`internal/catalog/catalog.go`).
A dictionary keeps a forward entry from name to ID and a reverse entry from ID to name; IDs
come from a counter and start at 1.
-/

namespace Intreccio.Catalog

open Kv Words

def tagCounter : UInt8 := 'c'.toUInt8
def tagLabelFwd : UInt8 := 'L'.toUInt8
def tagTypeFwd : UInt8 := 'T'.toUInt8
def tagKeyFwd : UInt8 := 'K'.toUInt8
def tagReverse : UInt8 := 'R'.toUInt8

def kindLabel : UInt8 := 'L'.toUInt8
def kindType : UInt8 := 'T'.toUInt8
def kindKey : UInt8 := 'K'.toUInt8
def kindNode : UInt8 := 'n'.toUInt8
def kindEdge : UInt8 := 'e'.toUInt8

def decodeU32 (v : Bytes) : Except Err UInt32 :=
  if v.length ≠ 4 then
    .error (.plain ("catalog: malformed dictionary id (len=" ++ toString v.length ++ ")"))
  else .ok (uint32OfBytes v)

def decodeU64 (v : Bytes) : Except Err UInt64 :=
  if v.length ≠ 8 then
    .error (.plain ("catalog: malformed counter value (len=" ++ toString v.length ++ ")"))
  else .ok (uint64OfBytes v)

@[simp] theorem decodeU32_uint32Bytes (id : UInt32) : decodeU32 (uint32Bytes id) = .ok id := by
  simp [decodeU32]

@[simp] theorem decodeU64_uint64Bytes (v : UInt64) : decodeU64 (uint64Bytes v) = .ok v := by
  simp [decodeU64]

def counterKey (kind : UInt8) : Bytes := [tagCounter, kind]

/-- The next value of a counter. The addition is on `uint64` and is not checked. -/
def nextCounter (kind : UInt8) : Txn UInt64 := do
  let cur ← match ← Program.lookup (counterKey kind) with
    | some v => Program.ofExcept (decodeU64 v)
    | none => pure 0
  let next := cur + 1
  Program.write (counterKey kind) (uint64Bytes next)
  return next

def nextNodeID : Txn UInt64 := nextCounter kindNode

def nextEdgeID : Txn UInt64 := nextCounter kindEdge

def reverseKey (kind : UInt8) (id : UInt32) : Bytes := tagReverse :: kind :: uint32Bytes id

def lookupDict (fwdTag : UInt8) (name : Str) : Txn (Option UInt32) := do
  match ← Program.lookup (fwdTag :: name) with
  | some v => return some (← Program.ofExcept (decodeU32 v))
  | none => return none

def internDict (fwdTag kind : UInt8) (name : Str) : Txn UInt32 := do
  match ← Program.lookup (fwdTag :: name) with
  | some v => Program.ofExcept (decodeU32 v)
  | none =>
    let id64 ← nextCounter kind
    if id64 > 0xFFFFFFFF then
      throw (.plain ("catalog: ran out of IDs for dictionary "
        ++ String.singleton (Char.ofUInt8 kind)))
    let id := id64.toUInt32
    Program.write (fwdTag :: name) (uint32Bytes id)
    Program.write (reverseKey kind id) name
    return id

def revName (kind : UInt8) (id : UInt32) : Txn Str := do
  match ← Program.lookup (reverseKey kind id) with
  | some name => return name
  | none => throw .notFound

def internLabel : Str → Txn UInt32 := internDict tagLabelFwd kindLabel
def internType : Str → Txn UInt32 := internDict tagTypeFwd kindType
def internKey : Str → Txn UInt32 := internDict tagKeyFwd kindKey

def lookupLabel : Str → Txn (Option UInt32) := lookupDict tagLabelFwd
def lookupType : Str → Txn (Option UInt32) := lookupDict tagTypeFwd
def lookupKey : Str → Txn (Option UInt32) := lookupDict tagKeyFwd

def labelName : UInt32 → Txn Str := revName kindLabel
def typeName : UInt32 → Txn Str := revName kindType
def keyName : UInt32 → Txn Str := revName kindKey

end Intreccio.Catalog
