import Intreccio.Foundation.FloatArithmetic
import Intreccio.Graph.Indexes

/-! Lookups by property value (`internal/graph/values.go`, `traversal.go`, `relindex.go`):
query equality, index probes, range scans and the cursors that stream nodes.
-/

namespace Intreccio.Graph

open Kv Words Codec

def floatOf (i : Int64) : Binary64 := Binary64.ofInt i.toInt

/-- Equality of scalars in queries: integers and floats compare as numbers, and null and NaN
equal nothing.
-/
def queryEqual (a b : Val) : Bool :=
  match normalize a, normalize b with
  | .bool x, .bool y => x = y
  | .str x, .str y => x = y
  | .int x, .int y => x = y
  | .int x, .float y => (floatOf x).eq y
  | .float x, .int y => x.eq (floatOf y)
  | .float x, .float y => x.eq y
  | _, _ => false

/-- Below this magnitude every integral float equals exactly one integer. -/
def maxExactInt : Int := 2 ^ 53

/-- The stored values that may equal `v`, if they can be listed. -/
def equalityProbes : Val → Option (List Val)
  | .int x =>
    let f := floatOf x
    if f.isZero then some [.int x, .float f, .float (.zero true)] else some [.int x, .float f]
  | .float x =>
    if x.isNaN then some []
    else if x.isZero then some [.int 0, .float (.zero false), .float (.zero true)]
    else if x.isInf then some [.float x]
    else if (Binary64.ofInt maxExactInt).le x.abs then none
    else if x.isInteger then some [.float x, .int x.toInt64]
    else some [.float x]
  | v => some [v]

def parsePropKeyNode (key : Bytes) : Except Err UInt64 :=
  if key.length < 18 ∨ key.head? ≠ some KeyProp then .error (malformed "p" key)
  else .ok (uint64OfBytes (key.drop (key.length - 8)))

/-- The value and the owner of an index key with the given tag. -/
def parseValueKey (tag : UInt8) (name : String) (key : Bytes) : Except Err (Scalar × UInt64) := do
  if key.length < 18 ∨ key.head? ≠ some tag then throw (malformed name key)
  let (v, n) ← decodeIndexValue (key.drop 9)
  if key.length ≠ 9 + n + 8 then throw (malformed name key)
  return (v, uint64OfBytes (key.drop (key.length - 8)))

def parsePropKey (key : Bytes) : Except Err (Scalar × UInt64) := parseValueKey KeyProp "p" key

def parseRelPropKey (key : Bytes) : Except Err (Scalar × UInt64) := parseValueKey KeyRelProp "r" key

/-- The owners listed under the key prefix of each probe, one probe after the other. -/
def probeMatches (stem : Val → Except Err Bytes) (parse : Bytes → Except Err UInt64)
    : List Val → Txn (List UInt64)
  | [] => return []
  | p :: rest => do
      let under ← Program.ofExcept (stem p)
      let found ← scan under
      let ids ← Program.ofExcept (parseKeys parse found)
      let more ← probeMatches stem parse rest
      return ids ++ more

/-- `sort.Slice` of IDs. -/
def sortIDs (ids : List UInt64) : List UInt64 := ids.insertionSort (· ≤ ·)

/-- The nodes whose value at `keyID` is accepted, in the given order. -/
def nodesWhere (keyID : UInt32) (accept : Val → Bool) : List UInt64 → Txn (List UInt64)
  | [] => return []
  | n :: rest => do
      let node ← getNode n
      let more ← nodesWhere keyID accept rest
      return if (node.props.get keyID).any accept then n :: more else more

/-- Through the index when the pair has one and the equal values can be listed. -/
def nodesByProperty (labelID keyID : UInt32) (value : Val) : Txn (List UInt64) := do
  let value := normalize value
  let has ← Catalog.hasIndex labelID keyID
  match equalityProbes value, has && isIndexable value with
  | some probes, true => do
      let ids ← probeMatches (propPrefix labelID keyID) parsePropKeyNode probes
      return sortIDs ids
  | _, _ => do
      let nodes ← nodesByLabel labelID
      nodesWhere keyID (queryEqual · value) nodes

/-- The relationships of a type whose value at `keyID` is accepted, in ID order. -/
def edgesWhere (typeID keyID : UInt32) (accept : Val → Bool) : Txn (List UInt64) := do
  let found ← scan edgePrefix
  let edges ← Program.ofExcept (edgesOfType typeID found)
  return (edges.filter (fun e => (e.props.get keyID).any accept)).map Edge.id

def edgesByProperty (typeID keyID : UInt32) (value : Val) : Txn (List UInt64) := do
  let value := normalize value
  if isNull value then return []
  let has ← Catalog.hasRelIndex typeID keyID
  match equalityProbes value, has && isIndexable value with
  | some probes, true => do
      let ids ← probeMatches (relPropPrefix typeID keyID)
        (fun k => Prod.snd <$> parseRelPropKey k) probes
      return sortIDs ids
  | _, _ => edgesWhere typeID keyID (queryEqual · value)

/-- The values of a property range scan: bounds with their inclusiveness, or a string that
the values start with.
-/
structure PropRange where
  lower : Option (Val × Bool)
  upper : Option (Val × Bool)
  startsWith : Option Str

/-- One stretch of an index: the keys below `stem` from `start` on, up to the first value at
which `stop` holds.
-/
structure BandPlan where
  stem : Bytes
  start : Bytes
  stop : Scalar → Bool

def propBandPrefix (labelID keyID : UInt32) (band : UInt8) : Bytes :=
  propIndexPrefix labelID keyID ++ [band]

/-- The encoding of a string without its terminator. -/
def appendStringPrefix (s : Str) : Bytes := tagStr :: (appendOrderedString s).dropLast.dropLast

inductive ValueKind where
  | number
  | string
  | bool
deriving DecidableEq

/-- The kind of a bound, if any value can compare with it. -/
def valueKind : Val → Option ValueKind
  | .int _ => some .number
  | .float f => if f.isNaN then none else some .number
  | .str _ => some .string
  | .bool _ => some .bool
  | _ => none

/-- The smallest integer that can lie above the bound. -/
def intLowerBound (bound : Val) (inclusive : Bool) : Option Int64 :=
  match bound with
  | .int x => if inclusive then some x else if x = Int64.maxValue then none else some (x + 1)
  | .float x =>
    if x.isInf || (Binary64.ofInt maxExactInt).le x.abs then none
    else if inclusive then some (Int64.ofInt x.ceilInt)
    else some (Int64.ofInt x.floorInt + 1)
  | _ => none

/-- The largest integer that can lie below the bound. -/
def intUpperBound (bound : Val) (inclusive : Bool) : Option Int64 :=
  match bound with
  | .int x => if inclusive then some x else if x = Int64.minValue then none else some (x - 1)
  | .float x =>
    if x.isInf || (Binary64.ofInt maxExactInt).le x.abs then none
    else if inclusive then some (Int64.ofInt x.floorInt)
    else some (Int64.ofInt x.ceilInt - 1)
  | _ => none

/-- The bound as a float, and whether the conversion is exact. -/
def floatBound : Val → Option (Binary64 × Bool)
  | .int x => some (floatOf x, -maxExactInt < x.toInt && x.toInt < maxExactInt)
  | .float x => some (x, true)
  | _ => none

def intBand (labelID keyID : UInt32) (r : PropRange) : BandPlan :=
  let stem := propBandPrefix labelID keyID tagInt
  let lower := r.lower.bind (fun (v, inclusive) => intLowerBound v inclusive)
  let upper := r.upper.bind (fun (v, inclusive) => intUpperBound v inclusive)
  { stem := stem
    start := lower.elim stem (fun l => propIndexPrefix labelID keyID ++ scalarBytes (.int l))
    stop := fun v => upper.elim false (fun u =>
      match v with
      | .int i => u < i
      | _ => true) }

/-- Where the floats above a lower bound start: a rounded bound is widened, and a zero bound
takes both zeros or none.
-/
def floatStart (bound : Val) (inclusive : Bool) : Option Binary64 :=
  match floatBound bound with
  | none => none
  | some (l, exact) =>
    if l.isInf && l.negative then none
    else if !exact then some (l.nextafter (.inf true))
    else if !inclusive then some (l.nextafter (.inf false))
    else if l.isZero then some (.zero true)
    else some l

def floatStop (bound : Val) (inclusive : Bool) (v : Scalar) : Bool :=
  match floatBound bound with
  | none => false
  | some (u, exact) =>
    if u.isInf && !u.negative then false
    else
      let (u, inclusive) := if exact then (u, inclusive) else (u.nextafter (.inf false), true)
      match v with
      | .float f => if inclusive then u.lt f else u.le f
      | _ => true

def floatBand (labelID keyID : UInt32) (r : PropRange) : BandPlan :=
  let stem := propBandPrefix labelID keyID tagFloat
  let lower := r.lower.bind (fun (v, inclusive) => floatStart v inclusive)
  { stem := stem
    start := lower.elim stem (fun l => propIndexPrefix labelID keyID ++ scalarBytes (.float l))
    stop := fun v => r.upper.elim false (fun (u, inclusive) => floatStop u inclusive v) }

def stringBand (labelID keyID : UInt32) (r : PropRange) : BandPlan :=
  let stem := propBandPrefix labelID keyID tagStr
  { stem := stem
    start :=
      match r.lower with
      | some (.str l, _) => propIndexPrefix labelID keyID ++ scalarBytes (.str l)
      | _ => stem
    stop := fun v =>
      match r.upper, v with
      | some (.str u, _), .str s => u < s
      | some (.str _, _), _ => true
      | _, _ => false }

/-- The kind that the bounds agree on, if both can compare with something. -/
def rangeKind (r : PropRange) : Option ValueKind :=
  match r.lower, r.upper with
  | some (lo, _), some (hi, _) =>
    (valueKind lo).bind (fun k => if valueKind hi = some k then some k else none)
  | some (lo, _), none => valueKind lo
  | none, some (hi, _) => valueKind hi
  | none, none => some .number

/-- The stretches that hold every value a range may accept, if some value can be accepted. -/
def rangeBands (labelID keyID : UInt32) (r : PropRange) : Option (List BandPlan) :=
  match r.startsWith with
  | some s =>
    let stem := propIndexPrefix labelID keyID ++ appendStringPrefix s
    some [⟨stem, stem, fun _ => false⟩]
  | none =>
    let r : PropRange :=
      { r with
        lower := r.lower.map (fun (v, i) => (normalize v, i))
        upper := r.upper.map (fun (v, i) => (normalize v, i)) }
    match rangeKind r with
    | none => none
    | some .string => some [stringBand labelID keyID r]
    | some .bool =>
      let stem := propBandPrefix labelID keyID tagBool
      some [⟨stem, stem, fun _ => false⟩]
    | some .number => some [intBand labelID keyID r, floatBand labelID keyID r]

/-- The entries of a stretch that are left, and where it stops. -/
structure RangeSegment where
  rest : List (Bytes × Bytes)
  stop : Scalar → Bool

/-- A scan in progress. The entries are those at its creation. -/
inductive NodeCursor where
  | all (rest : List (Bytes × Bytes))
  | byLabel (rest : List (Bytes × Bytes))
  | ranges (segs : List RangeSegment)

def scanAllNodes : Txn NodeCursor := do
  let found ← scan nodePrefix
  return .all found

def scanLabel (labelID : UInt32) : Txn NodeCursor := do
  let found ← scan (labelPrefix labelID)
  return .byLabel found

/-- `txn.ScanFrom(prefix, start)`, read to its end. -/
def scanFrom (stem start : Bytes) : Txn (List (Bytes × Bytes)) :=
  Program.entries (fun k => under stem k && decide (start ≤ k))

def openBands : List BandPlan → Txn (List RangeSegment)
  | [] => return []
  | p :: rest => do
      let found ← scanFrom p.stem p.start
      let more ← openBands rest
      return ⟨found, p.stop⟩ :: more

/-- No cursor when no value can satisfy the range. -/
def scanPropertyRange (labelID keyID : UInt32) (r : PropRange) : Txn (Option NodeCursor) := do
  match rangeBands labelID keyID r with
  | none => return none
  | some bands => do
      let segs ← openBands bands
      return some (.ranges segs)

/-- The next node of a range scan; a stretch that stopped is left. -/
def nextInRange : List RangeSegment → Txn (Option Node × List RangeSegment)
  | [] => return (none, [])
  | ⟨[], _⟩ :: more => nextInRange more
  | ⟨(k, _) :: rest, stop⟩ :: more => do
      let (v, id) ← Program.ofExcept (parsePropKey k)
      if stop v then nextInRange more
      else
        let node ← getNode id
        return (some node, ⟨rest, stop⟩ :: more)

def nodeOfEntry (k b : Bytes) : Except Err Node := do
  let id ← nodeIDFromKey k
  let record ← (decodeNode b).mapError (.because ("graph: decode node " ++ toString id.toNat))
  return ⟨record, id⟩

def nodeOfLabelKey (k : Bytes) : Txn Node := do
  let (_, id) ← Program.ofExcept (parseLabelKey k)
  getNode id

def NodeCursor.next : NodeCursor → Txn (Option Node × NodeCursor)
  | .all [] => return (none, .all [])
  | .all ((k, b) :: rest) => do
      let node ← Program.ofExcept (nodeOfEntry k b)
      return (some node, .all rest)
  | .byLabel [] => return (none, .byLabel [])
  | .byLabel ((k, _) :: rest) => do
      let node ← nodeOfLabelKey k
      return (some node, .byLabel rest)
  | .ranges segs => do
      let (node, segs) ← nextInRange segs
      return (node, .ranges segs)

end Intreccio.Graph
