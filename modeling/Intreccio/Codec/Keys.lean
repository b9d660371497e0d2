import Intreccio.Codec.IndexValues

/-! Keys of the graph tables (`internal/storage/codec/key.go`): one tag byte, then
fixed-width big-endian IDs, with an indexed value before the trailing ID in `p` and `r` keys.
-/

namespace Intreccio.Codec

open Words List

def KeyNode : UInt8 := 'n'.toUInt8
def KeyEdge : UInt8 := 'e'.toUInt8
def KeyOut : UInt8 := 'o'.toUInt8
def KeyIn : UInt8 := 'i'.toUInt8
def KeyLabel : UInt8 := 'l'.toUInt8
def KeyProp : UInt8 := 'p'.toUInt8
def KeyUnique : UInt8 := 'u'.toUInt8
def KeyRelProp : UInt8 := 'r'.toUInt8

def nodeKey (id : UInt64) : Bytes := KeyNode :: uint64Bytes id

def edgeKey (id : UInt64) : Bytes := KeyEdge :: uint64Bytes id

def nodePrefix : Bytes := [KeyNode]

def edgePrefix : Bytes := [KeyEdge]

def outKey (src : UInt64) (typeID : UInt32) (dst edge : UInt64) : Bytes :=
  KeyOut :: (uint64Bytes src ++ uint32Bytes typeID ++ uint64Bytes dst ++ uint64Bytes edge)

def inKey (dst : UInt64) (typeID : UInt32) (src edge : UInt64) : Bytes :=
  KeyIn :: (uint64Bytes dst ++ uint32Bytes typeID ++ uint64Bytes src ++ uint64Bytes edge)

def outPrefix (src : UInt64) (typeID : UInt32) : Bytes :=
  KeyOut :: (uint64Bytes src ++ uint32Bytes typeID)

def outPrefixAll (src : UInt64) : Bytes := KeyOut :: uint64Bytes src

def inPrefix (dst : UInt64) (typeID : UInt32) : Bytes :=
  KeyIn :: (uint64Bytes dst ++ uint32Bytes typeID)

def inPrefixAll (dst : UInt64) : Bytes := KeyIn :: uint64Bytes dst

def labelKey (label : UInt32) (node : UInt64) : Bytes :=
  KeyLabel :: (uint32Bytes label ++ uint64Bytes node)

def labelPrefix (label : UInt32) : Bytes := KeyLabel :: uint32Bytes label

def propIndexPrefix (label propKey : UInt32) : Bytes :=
  KeyProp :: (uint32Bytes label ++ uint32Bytes propKey)

def propPrefix (label propKey : UInt32) (value : Val) : Except Err Bytes := do
  let enc ← appendIndexValue value
  return propIndexPrefix label propKey ++ enc

def propKey (label propKey : UInt32) (value : Val) (node : UInt64) : Except Err Bytes := do
  let enc ← appendIndexValue value
  return propIndexPrefix label propKey ++ enc ++ uint64Bytes node

def relPropIndexPrefix (typeID propKey : UInt32) : Bytes :=
  KeyRelProp :: (uint32Bytes typeID ++ uint32Bytes propKey)

def relPropPrefix (typeID propKey : UInt32) (value : Val) : Except Err Bytes := do
  let enc ← appendIndexValue value
  return relPropIndexPrefix typeID propKey ++ enc

def relPropKey (typeID propKey : UInt32) (value : Val) (edge : UInt64) : Except Err Bytes := do
  let k ← relPropPrefix typeID propKey value
  return k ++ uint64Bytes edge

def uniquePrefix (label propKey : UInt32) : Bytes :=
  KeyUnique :: (uint32Bytes label ++ uint32Bytes propKey)

def uniqueKey (label propKey : UInt32) (value : Val) : Except Err Bytes := do
  let enc ← appendIndexValue value
  return uniquePrefix label propKey ++ enc

def slice (b : Bytes) (i j : Nat) : Bytes := (b.drop i).take (j - i)

def malformed (tag : String) (key : Bytes) : Err :=
  .plain ("codec: malformed `" ++ tag ++ "` key (len=" ++ toString key.length ++ ")")

def parseOutKey (key : Bytes) : Except Err (UInt64 × UInt32 × UInt64 × UInt64) :=
  if key.length ≠ 29 ∨ key.head? ≠ some KeyOut then .error (malformed "o" key)
  else
    .ok (uint64OfBytes (slice key 1 9), uint32OfBytes (slice key 9 13),
      uint64OfBytes (slice key 13 21), uint64OfBytes (slice key 21 29))

def parseInKey (key : Bytes) : Except Err (UInt64 × UInt32 × UInt64 × UInt64) :=
  if key.length ≠ 29 ∨ key.head? ≠ some KeyIn then .error (malformed "i" key)
  else
    .ok (uint64OfBytes (slice key 1 9), uint32OfBytes (slice key 9 13),
      uint64OfBytes (slice key 13 21), uint64OfBytes (slice key 21 29))

def parseLabelKey (key : Bytes) : Except Err (UInt32 × UInt64) :=
  if key.length ≠ 13 ∨ key.head? ≠ some KeyLabel then .error (malformed "l" key)
  else .ok (uint32OfBytes (slice key 1 5), uint64OfBytes (slice key 5 13))

def nodeIDFromKey (key : Bytes) : Except Err UInt64 :=
  if key.length ≠ 9 ∨ key.head? ≠ some KeyNode then .error (malformed "n" key)
  else .ok (uint64OfBytes (slice key 1 9))

def edgeIDFromKey (key : Bytes) : Except Err UInt64 :=
  if key.length ≠ 9 ∨ key.head? ≠ some KeyEdge then .error (malformed "e" key)
  else .ok (uint64OfBytes (slice key 1 9))

@[simp] theorem parseOutKey_outKey (src : UInt64) (typeID : UInt32) (dst edge : UInt64)
    : parseOutKey (outKey src typeID dst edge) = .ok (src, typeID, dst, edge) := by
  simp [parseOutKey, outKey, slice, drop_append, take_of_length_le,
    drop_of_length_le]

@[simp] theorem parseInKey_inKey (dst : UInt64) (typeID : UInt32) (src edge : UInt64)
    : parseInKey (inKey dst typeID src edge) = .ok (dst, typeID, src, edge) := by
  simp [parseInKey, inKey, slice, drop_append, take_of_length_le,
    drop_of_length_le]

@[simp] theorem parseLabelKey_labelKey (label : UInt32) (node : UInt64)
    : parseLabelKey (labelKey label node) = .ok (label, node) := by
  simp [parseLabelKey, labelKey, slice, drop_append, take_of_length_le]

@[simp] theorem nodeIDFromKey_nodeKey (id : UInt64) : nodeIDFromKey (nodeKey id) = .ok id := by
  simp [nodeIDFromKey, nodeKey, slice, take_of_length_le]

@[simp] theorem edgeIDFromKey_edgeKey (id : UInt64) : edgeIDFromKey (edgeKey id) = .ok id := by
  simp [edgeIDFromKey, edgeKey, slice, take_of_length_le]

end Intreccio.Codec
