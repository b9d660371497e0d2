import Intreccio.Foundation.Choices
import Intreccio.Exec.Values

/-! The scalar functions (`internal/exec/functions.go`, and the path functions of
`shortest.go`).
-/

namespace Intreccio.Exec

open Kv Words Graph

/-- Parts of Go's library that rest on tables or engines of their own: the regular expressions
(the matcher of the whole string, or why a pattern is refused), Unicode case, quoted text and
the reading of decimal numbers.
-/
structure Library where
  regexp : Str → Except Str (Str → Bool)
  toUpper : Str → Str
  toLower : Str → Str
  quote : Str → Str
  parseFloat : Str → Option Binary64

/-- The execution state that a query does not change: its parameters, the row cap (0 for none)
and the time of `timestamp()`.
-/
structure Context where
  params : OrderedMap Str Val
  maxRows : Nat
  now : Int64
  lib : Library

/-- No parameters, no row cap, and a library that knows no pattern, no letter case and no number. -/
def Context.bare : Context where
  params := .empty
  maxRows := 0
  now := 0
  lib := { regexp := fun p => .error p, toUpper := id, toLower := id, quote := id, parseFloat := fun _ => none }

/-- A built-in function, with the choices its loops over maps and draws make. -/
abbrev ScalarFunc := Context → Choices → List Val → Txn Val

/-- The number of arguments lies between `least` and `most`, without `most` there is no bound. -/
def needArgs (name : String) (args : List Val) (least : Nat) (most : Option Nat) : Txn Unit := do
  if args.length < least || most.any (· < args.length) then
    let bounds :=
      if most = some least then toString least ++ " argument(s)"
      else toString least ++ ".." ++ (most.elim "-1" toString) ++ " arguments"
    throw (.plain ("exec: " ++ name ++ " expects " ++ bounds ++ ", got " ++ toString args.length))

def oneArg (name : String) (f : Context → Choices → Val → Txn Val) : ScalarFunc :=
  fun ctx c args => do
    needArgs name args 1 (some 1)
    match args with
    | v :: _ => f ctx c v
    | [] => return .null

def expects (name what : String) (v : Val) : Err :=
  .plain ("exec: " ++ name ++ "() expects " ++ what ++ ", got " ++ v.typeName)

def intArg (name : String) : Val → Txn Int64
  | .int n => return n
  | .float f => return f.toInt64
  | v => throw (expects name "an integer" v)

def fnID : ScalarFunc := oneArg "id" (fun _ _ v =>
  match v with
  | .null => return .null
  | .node n => return .int n.id.toInt64
  | .edge e => return .int e.id.toInt64
  | v => throw (expects "id" "a node or relationship" v))

def namesOf (lookup : UInt32 → Txn Str) : List UInt32 → Txn (List Str)
  | [] => return []
  | id :: rest => do
      let name ← lookup id
      let more ← namesOf lookup rest
      return name :: more

def strings (l : List Str) : Val := .list (l.map Val.str)

def fnLabels : ScalarFunc := oneArg "labels" (fun _ _ v =>
  match v with
  | .null => return .null
  | .node n => do
      let names ← namesOf Catalog.labelName n.labels
      return strings names
  | v => throw (expects "labels" "a node" v))

def fnType : ScalarFunc := oneArg "type" (fun _ _ v =>
  match v with
  | .null => return .null
  | .edge e => do
      let name ← Catalog.typeName e.type
      return .str name
  | v => throw (expects "type" "a relationship" v))

/-- The property names of an entity, in the order in which a loop visits its map. -/
def keyNames (c : Choices) (props : List (UInt32 × Val)) : Txn Val := do
  let names ← namesOf Catalog.keyName ((c.range props).map Prod.fst)
  return strings names

def fnKeys : ScalarFunc := oneArg "keys" (fun _ c v =>
  match v with
  | .null => return .null
  | .node n => keyNames c n.props
  | .edge e => keyNames c e.props
  | .map entries => return strings ((c.range entries).map Prod.fst)
  | v => throw (expects "keys" "a node, relationship or map" v))

def propsMap (c : Choices) (props : List (UInt32 × Val)) : Txn Val := do
  let visited := c.range props
  let names ← namesOf Catalog.keyName (visited.map Prod.fst)
  return .map ((names.zip (visited.map Prod.snd)).foldl
    (fun m e => OrderedMap.insertEntry e.1 e.2 m) [])

def fnProperties : ScalarFunc := oneArg "properties" (fun _ c v =>
  match v with
  | .null => return .null
  | .node n => propsMap c n.props
  | .edge e => propsMap c e.props
  | .map entries => return .map entries
  | v => throw (expects "properties" "a node, relationship or map" v))

def edgeEnd (name : String) (pick : EdgeOf Val → UInt64) : ScalarFunc :=
  oneArg name (fun _ _ v =>
    match v with
    | .null => return .null
    | .edge e => do
        let node ← getNode (pick e)
        return ofNode node
    | v => throw (expects name "a relationship" v))

def fnStartNode : ScalarFunc := edgeEnd "startNode" EdgeOf.src

def fnEndNode : ScalarFunc := edgeEnd "endNode" EdgeOf.dst

def fnNodes : ScalarFunc := oneArg "nodes" (fun _ _ v =>
  match v with
  | .null => return .null
  | .path nodes _ => return .list (nodes.map Val.node)
  | v => throw (expects "nodes" "a path" v))

def fnRelationships : ScalarFunc := oneArg "relationships" (fun _ _ v =>
  match v with
  | .null => return .null
  | .path _ rels => return .list (rels.map Val.edge)
  | v => throw (expects "relationships" "a path" v))

def length64 {α : Type} (l : List α) : Val := .int (Int64.ofNat l.length)

/-- The length of a string in characters, of a list, or, for `length` only, of a path. -/
def sizeOf (name : String) : Val → Txn Val
  | .null => return .null
  | .str s => return length64 (runes s)
  | .list items => return length64 items
  | .edges items => return length64 items
  | .path _ rels =>
    if name = "length" then return length64 rels
    else throw (.plain ("exec: " ++ name ++ "() expects a list or string, got a path (use length())"))
  | v => throw (expects name "a list or string" v)

def fnSize : ScalarFunc := oneArg "size" (fun _ _ v => sizeOf "size" v)

def fnLength : ScalarFunc := oneArg "length" (fun _ _ v => sizeOf "length" v)

def listFunc (name : String) (f : List Val → Val) : ScalarFunc :=
  oneArg name (fun _ _ v =>
    match v with
    | .null => return .null
    | .list items => return f items
    | v => throw (expects name "a list" v))

def fnHead : ScalarFunc := listFunc "head" (fun items => items.head?.getD .null)

def fnLast : ScalarFunc := listFunc "last" (fun items => items.getLast?.getD .null)

def fnTail : ScalarFunc := listFunc "tail" (fun items => .list items.tail)

def maxRangeLen : Int := 10000000

def intArgs (name : String) : List Val → Txn (List Int64)
  | [] => return []
  | v :: rest => do
      match normalize v with
      | .int n =>
        let more ← intArgs name rest
        return n :: more
      | _ => throw (.plain ("exec: " ++ name ++ "() expects integers, got " ++ v.typeName))

/-- The terms from `i` on that do not pass `stop`; the loop ends before a step that would
overflow. `fuel` bounds the number of terms.
-/
def rangeFrom (stop step : Int64) : Nat → Int64 → List Int64
  | 0, _ => []
  | fuel + 1, i =>
    if (0 < step ∧ i ≤ stop) ∨ (step < 0 ∧ stop ≤ i) then
      if (0 < step ∧ Int64.maxValue - step < i) ∨ (step < 0 ∧ i < Int64.minValue - step) then [i]
      else i :: rangeFrom stop step fuel (i + step)
    else []

def fnRange : ScalarFunc := fun _ _ args => do
  needArgs "range" args 2 (some 3)
  let nums ← intArgs "range" args
  let start := nums.getD 0 0
  let stop := nums.getD 1 0
  let step := nums.getD 2 1
  if step = 0 then throw (.plain "exec: range() step must not be zero")
  let size := (((floatOf stop).sub (floatOf start)).div (floatOf step)).add (Binary64.ofInt 1)
  if (Binary64.ofInt maxRangeLen).lt size then
    throw (.plain ("exec: range() would produce more than " ++ toString maxRangeLen ++ " elements"))
  return .list ((rangeFrom stop step (2 ^ 64) start).map Val.int)

def fnCoalesce : ScalarFunc := fun _ _ args => do
  needArgs "coalesce" args 1 none
  return (args.find? (fun v => !isNull v)).getD .null

def numericFunc (name : String) (f : Binary64 → Binary64) : ScalarFunc :=
  oneArg name (fun _ _ v =>
    match normalize v with
    | .null => return .null
    | .int n => return .float (f (floatOf n))
    | .float x => return .float (f x)
    | _ => throw (expects name "a number" v))

def half : Binary64 := (Binary64.ofInt 1).div (Binary64.ofInt 2)

def fnRound : ScalarFunc := numericFunc "round" (fun x => (x.add half).floor)

def fnFloor : ScalarFunc := numericFunc "floor" Binary64.floor

def fnCeil : ScalarFunc := numericFunc "ceil" Binary64.ceil

def fnSqrt : ScalarFunc := numericFunc "sqrt" Binary64.sqrt

def fnSign : ScalarFunc := oneArg "sign" (fun _ _ v =>
  match normalize v with
  | .null => return .null
  | .int n => return .int (if n < 0 then -1 else if 0 < n then 1 else 0)
  | .float x =>
    return .int (if (Binary64.zero false).lt x then 1 else if x.lt (.zero false) then -1 else 0)
  | _ => throw (expects "sign" "a number" v))

def fnAbs : ScalarFunc := oneArg "abs" (fun _ _ v =>
  match v with
  | .null => return .null
  | .int n =>
    if n < 0 then do
      let m ← Program.ofExcept (negateInt n)
      return .int m
    else return .int n
  | .float f => return .float f.abs
  | v => throw (expects "abs" "a number" v))

/-- A draw from the multiples of `2 ^ (-53)` below 1. -/
def fnRand : ScalarFunc := fun _ c args => do
  needArgs "rand" args 0 (some 0)
  return .float (.round false ((c.draw []).toNat % 2 ^ 53) (2 ^ 53))

def fnTimestamp : ScalarFunc := fun ctx _ args => do
  needArgs "timestamp" args 0 (some 0)
  return .int ctx.now

def digitsValue : Str → Nat → Option Nat
  | [], n => some n
  | c :: rest, n =>
    if 0x30 ≤ c ∧ c ≤ 0x39 then digitsValue rest (n * 10 + (c.toNat - 0x30)) else none

/-- `strconv.ParseInt(s, 10, 64)`. -/
def parseInt (s : Str) : Option Int64 :=
  let (negative, digits) :=
    match s with
    | 0x2D :: rest => (true, rest)
    | 0x2B :: rest => (false, rest)
    | _ => (false, s)
  if digits.isEmpty then none
  else
    (digitsValue digits 0).bind (fun n =>
      let i : Int := if negative then -n else n
      if -(2 ^ 63) ≤ i ∧ i < 2 ^ 63 then some (Int64.ofInt i) else none)

def unsupportedType (name : String) (v : Val) : Err :=
  .plain ("exec: " ++ name ++ "() unsupported type " ++ v.typeName)

def fnToInteger : ScalarFunc := oneArg "toInteger" (fun _ _ v =>
  match v with
  | .null => return .null
  | .int n => return .int n
  | .float f => return if f.isNaN || f.isInf then .null else .int f.toInt64
  | .str s => return (parseInt (trimSpace s)).elim .null Val.int
  | .bool b => return .int (if b then 1 else 0)
  | v => throw (unsupportedType "toInteger" v))

def fnToFloat : ScalarFunc := oneArg "toFloat" (fun ctx _ v =>
  match v with
  | .null => return .null
  | .float f => return .float f
  | .int n => return .float (floatOf n)
  | .str s => return (ctx.lib.parseFloat (trimSpace s)).elim .null Val.float
  | v => throw (unsupportedType "toFloat" v))

def fnToString : ScalarFunc := oneArg "toString" (fun _ _ v =>
  match v with
  | .null => return .null
  | v => return .str (sprint v))

def stringFn (name : String) (f : Library → Str → Str) : ScalarFunc :=
  oneArg name (fun ctx _ v =>
    match v with
    | .null => return .null
    | .str s => return .str (f ctx.lib s)
    | v => throw (.plain ("exec: expected a string, got " ++ v.typeName)))

def fnToUpper : ScalarFunc := stringFn "toUpper" Library.toUpper

def fnToLower : ScalarFunc := stringFn "toLower" Library.toLower

def fnTrim : ScalarFunc := stringFn "trim" (fun _ => trimSpace)

/-- `runes[i:j]` as a string. -/
def runeSlice (rs : List Nat) (i j : Int64) : Val :=
  .str (ofRunes ((rs.take j.toInt.toNat).drop i.toInt.toNat))

def substringFrom (s : Str) (start : Int64) (more : List Val) : Txn Val := do
  let rs := runes s
  let size := Int64.ofNat rs.length
  let start := if start < 0 then 0 else start
  if size < start then return .str []
  match more with
  | [] => return runeSlice rs start size
  | v :: _ => do
      let length ← intArg "substring" v
      let stop := start + length
      let stop := if stop < start then start else stop
      return runeSlice rs start (if size < stop then size else stop)

/-- Character offsets from zero; the sum of start and length may wrap around. -/
def fnSubstring : ScalarFunc := fun _ _ args => do
  needArgs "substring" args 2 (some 3)
  match args with
  | .null :: _ => return .null
  | .str s :: v :: more => do
      let start ← intArg "substring" v
      substringFrom s start more
  | v :: _ => throw (expects "substring" "a string" v)
  | [] => return .null

/-- Replace the occurrences of a string that is not empty, from the left; `skip` bytes belong
to the occurrence before.
-/
def replaceFrom (old new : Str) : Nat → Str → Str
  | _, [] => []
  | 0, c :: rest =>
    if old.isPrefixOf (c :: rest) then new ++ replaceFrom old new (old.length - 1) rest
    else c :: replaceFrom old new 0 rest
  | skip + 1, _ :: rest => replaceFrom old new skip rest

/-- `strings.ReplaceAll`; an empty string occurs before every character and at the end. -/
def replaceAll (s old new : Str) : Str :=
  if old.isEmpty then ((runeSpans 0 s).flatMap (fun r => new ++ r.2)) ++ new
  else replaceFrom old new 0 s

/-- `fmt.Errorf("exec: <name>() expects a string for <arg in backquotes>, got %T", v)`. -/
def expectsString (name arg : String) (v : Val) : Err :=
  expects name ("a string for `" ++ arg ++ "`") v

def fnReplace : ScalarFunc := fun _ _ args => do
  needArgs "replace" args 3 (some 3)
  if args.any isNull then return .null
  match args with
  | [.str s, .str old, .str new] => return .str (replaceAll s old new)
  | [.str _, .str _, v] => throw (expectsString "replace" "replacement" v)
  | .str _ :: v :: _ => throw (expectsString "replace" "search" v)
  | v :: _ => throw (expects "replace" "a string" v)
  | [] => return .null

/-- The pieces between the occurrences of a string that is not empty. -/
def splitFrom (sep : Str) : Nat → Str → Str → List Str
  | _, piece, [] => [piece]
  | 0, piece, c :: rest =>
    if sep.isPrefixOf (c :: rest) then piece :: splitFrom sep (sep.length - 1) [] rest
    else splitFrom sep 0 (piece ++ [c]) rest
  | skip + 1, piece, _ :: rest => splitFrom sep skip piece rest

/-- `strings.Split`; an empty separator gives the characters. -/
def splitStr (s sep : Str) : List Str :=
  if sep.isEmpty then (runeSpans 0 s).map Prod.snd else splitFrom sep 0 [] s

def fnSplit : ScalarFunc := fun _ _ args => do
  needArgs "split" args 2 (some 2)
  if args.any isNull then return .null
  match args with
  | [.str s, .str sep] => return strings (splitStr s sep)
  | .str _ :: v :: _ => throw (expectsString "split" "delimiter" v)
  | v :: _ => throw (expects "split" "a string" v)
  | [] => return .null

def scalarFuncs : List (Str × ScalarFunc) :=
  [(lit "id", fnID), (lit "labels", fnLabels), (lit "type", fnType), (lit "keys", fnKeys),
    (lit "properties", fnProperties), (lit "size", fnSize), (lit "length", fnLength),
    (lit "nodes", fnNodes), (lit "relationships", fnRelationships),
    (lit "tointeger", fnToInteger), (lit "tofloat", fnToFloat), (lit "tostring", fnToString),
    (lit "toupper", fnToUpper), (lit "tolower", fnToLower), (lit "trim", fnTrim),
    (lit "substring", fnSubstring), (lit "replace", fnReplace), (lit "split", fnSplit),
    (lit "abs", fnAbs), (lit "head", fnHead), (lit "last", fnLast), (lit "tail", fnTail),
    (lit "range", fnRange), (lit "coalesce", fnCoalesce), (lit "startnode", fnStartNode),
    (lit "endnode", fnEndNode), (lit "round", fnRound), (lit "floor", fnFloor),
    (lit "ceil", fnCeil), (lit "sqrt", fnSqrt), (lit "sign", fnSign), (lit "rand", fnRand),
    (lit "timestamp", fnTimestamp)]

def scalarFunc (name : Str) : Option ScalarFunc := OrderedMap.find (Ast.lowerName name) scalarFuncs

end Intreccio.Exec
