import Intreccio.Foundation.FloatText
import Intreccio.Foundation.Runes
import Intreccio.Graph.Lookups
import Intreccio.Query.Ast

/-! Rows, and comparison, arithmetic and text of values in queries (`internal/exec/eval.go`,
and the keys of `aggregate.go` and `exec.go`).
-/

namespace Intreccio.Exec

open Kv Graph

/-- A row: the values of variables and columns by name. -/
abbrev Row := OrderedMap Str Val

/-- Records as a row holds them. -/
def nodeOf (n : Node) : NodeOf Val := ⟨n.id, n.labels, n.props.entries⟩

def ofNode (n : Node) : Val := .node (nodeOf n)

def edgeOf (e : Edge) : EdgeOf Val := ⟨e.id, e.type, e.src, e.dst, e.props.entries⟩

def ofEdge (e : Edge) : Val := .edge (edgeOf e)

/-- The value a row has for a name; a missing name reads as null. -/
def cell (b : Row) (name : Str) : Val := (b.get name).getD .null

/-- `v.(graph.Node)`. -/
def asNode : Val → Option (NodeOf Val)
  | .node n => some n
  | _ => none

/-- Only a boolean true counts as true. -/
def truthy : Val → Bool
  | .bool b => b
  | _ => false

/-- Conjunction with an unknown value. -/
def and3 : Option Bool → Option Bool → Option Bool
  | some false, _ => some false
  | some true, r => r
  | none, some false => some false
  | none, _ => none

/-- The node and relationship IDs along a path. -/
def pathIDs (nodes : List (NodeOf Val)) (rels : List (EdgeOf Val)) : Str :=
  let id (stem : String) (n : UInt64) : Str := lit (stem ++ toString n.toNat)
  (nodes.head?.elim [] (fun n => id "N" n.id))
    ++ (rels.zip nodes.tail).flatMap (fun (r, n) => id ",E" r.id ++ id ",N" n.id)

mutual
/-- Whether two values are equal, unknown when that depends on a null. Nodes, relationships
and paths compare by identity; values of different kinds are unequal.
-/
def equality : Val → Val → Option Bool
  | .null, _ => none
  | .list xs, b =>
    match b with
    | .null => none
    | .list ys => if xs.length ≠ ys.length then some false else equalityItems xs ys
    | _ => some false
  | .map xs, b =>
    match b with
    | .null => none
    | .map ys => if xs.length ≠ ys.length then some false else equalityEntries xs ys
    | _ => some false
  | .node n, b =>
    match b with
    | .null => none
    | .node m => some (n.id = m.id)
    | _ => some false
  | .edge e, b =>
    match b with
    | .null => none
    | .edge f => some (e.id = f.id)
    | _ => some false
  | .path nodes rels, b =>
    match b with
    | .null => none
    | .path nodes' rels' => some (pathIDs nodes rels = pathIDs nodes' rels')
    | _ => some false
  | a, b => if isNull b then none else some (queryEqual a b)
termination_by structural a => a

def equalityItems : List Val → List Val → Option Bool
  | x :: xs, y :: ys => and3 (equality x y) (equalityItems xs ys)
  | _, _ => some true
termination_by structural l => l

def equalityEntries : List (Str × Val) → List (Str × Val) → Option Bool
  | [], _ => some true
  | (k, x) :: rest, other =>
    let here :=
      match OrderedMap.find k other with
      | none => some false
      | some y => equality x y
    and3 here (equalityEntries rest other)
termination_by structural l => l
end

def equals (a b : Val) : Bool := equality a b = some true

def ofTruth : Option Bool → Val
  | none => .null
  | some b => .bool b

def equalityOp (a b : Val) (negate : Bool) : Val :=
  ofTruth ((equality a b).map (fun eq => eq != negate))

/-- NaN is neither below nor above any number. -/
def cmpFloat64 (a b : Binary64) : Ordering :=
  if a.lt b then .lt else if b.lt a then .gt else .eq

def cmpInt64 (a b : Int64) : Ordering := if a < b then .lt else if b < a then .gt else .eq

def cmpStr (a b : Str) : Ordering := if a < b then .lt else if b < a then .gt else .eq

def cmpBool (a b : Bool) : Ordering := if a = b then .eq else if !a then .lt else .gt

/-- The order of two scalars, if they can be compared. -/
def compareValues (a b : Val) : Option Ordering :=
  match normalize a, normalize b with
  | .int x, .int y => some (cmpInt64 x y)
  | .int x, .float y => some (cmpFloat64 (floatOf x) y)
  | .float x, .int y => some (cmpFloat64 x (floatOf y))
  | .float x, .float y => some (cmpFloat64 x y)
  | .str x, .str y => some (cmpStr x y)
  | .bool x, .bool y => some (cmpBool x y)
  | _, _ => none

def isNaNValue : Val → Bool
  | .float f => f.isNaN
  | _ => false

/-- The comparisons: null for values that cannot be compared, false for NaN. -/
def compareOp (accept : Ordering → Bool) (a b : Val) : Val :=
  let a := normalize a
  let b := normalize b
  if isNull a || isNull b then .null
  else if isNaNValue a || isNaNValue b then .bool false
  else
    match compareValues a b with
    | none => .null
    | some c => .bool (accept c)

def errIntegerOverflow : Err := .plain "exec: integer overflow"

def divisionByZero : Err := .plain "exec: division by zero"

/-- Addition that fails instead of wrapping around. -/
def addInt (a b : Int64) : Except Err Int64 :=
  let c := a + b
  if (a ^^^ c) &&& (b ^^^ c) < 0 then .error errIntegerOverflow else .ok c

def negateInt (n : Int64) : Except Err Int64 :=
  if n = Int64.minValue then .error errIntegerOverflow else .ok (-n)

inductive Arithmetic where
  | add
  | sub
  | mul
  | div
  | mod
deriving DecidableEq

def intArithmetic : Arithmetic → Int64 → Int64 → Except Err Int64
  | .add, a, b => addInt a b
  | .sub, a, b =>
    let c := a - b
    if (a ^^^ b) &&& (a ^^^ c) < 0 then .error errIntegerOverflow else .ok c
  | .mul, a, b =>
    if a = 0 ∨ b = 0 then .ok 0
    else
      let c := a * b
      if c / b ≠ a ∨ (a = -1 ∧ b = Int64.minValue) ∨ (b = -1 ∧ a = Int64.minValue) then
        .error errIntegerOverflow
      else .ok c
  | .div, a, b =>
    if b = 0 then .error divisionByZero
    else if a = Int64.minValue ∧ b = -1 then .error errIntegerOverflow
    else .ok (a / b)
  | .mod, a, b => if b = 0 then .error divisionByZero else .ok (a % b)

def floatArithmetic : Arithmetic → Binary64 → Binary64 → Except Err Binary64
  | .add, a, b => .ok (a.add b)
  | .sub, a, b => .ok (a.sub b)
  | .mul, a, b => .ok (a.mul b)
  | .div, a, b => if b.isZero then .error divisionByZero else .ok (a.div b)
  | .mod, _, _ => .error (.plain "exec: modulo requires integers")

def toFloat : Val → Option Binary64
  | .int n => some (floatOf n)
  | .float f => some f
  | _ => none

def notANumber (v : Val) : Err := .plain ("exec: arithmetic requires numbers, got " ++ v.typeName)

/-- Two strings can be added; otherwise both sides are numbers, and two integers stay so. -/
def arithmetic (op : Arithmetic) (a b : Val) : Except Err Val := do
  match op, normalize a, normalize b with
  | .add, .str x, .str y => return .str (x ++ y)
  | op, .int x, .int y => return .int (← intArithmetic op x y)
  | op, a, b =>
    match toFloat a, toFloat b with
    | some x, some y => return .float (← floatArithmetic op x y)
    | none, _ => throw (notANumber a)
    | _, none => throw (notANumber b)

/-- Null unless both operands are strings. -/
def stringPredicate (test : Str → Str → Bool) : Val → Val → Val
  | .str l, .str r => .bool (test l r)
  | _, _ => .null

def containsStr (whole part : Str) : Bool := whole.tails.any (fun t => part.isPrefixOf t)

/-- Membership with three-valued logic. -/
def inList (needle haystack : Val) : Except Err Val :=
  match haystack with
  | .null => .ok .null
  | .list items =>
    let found := items.map (equality needle)
    if some true ∈ found then .ok (.bool true)
    else if none ∈ found then .ok .null
    else .ok (.bool false)
  | v => .error (.plain ("exec: IN requires a list, got " ++ v.typeName))

def natText (n : Nat) : Str := lit (toString n)

def spaced : List Str → Str
  | [] => []
  | [s] => s
  | s :: rest => s ++ lit " " ++ spaced rest

def bracketed (l : List Str) : Str := lit "[" ++ spaced l ++ lit "]"

def mapText (l : List Str) : Str := lit "map[" ++ spaced l ++ lit "]"

/-- `%v` of a `graph.Node`, given the texts of its properties. -/
def nodeText (id : UInt64) (labels : List UInt32) (props : List Str) : Str :=
  lit "\x7b" ++ natText id.toNat ++ lit " \x7b" ++ bracketed (labels.map (fun l => natText l.toNat))
    ++ lit " " ++ mapText props ++ lit "\x7d\x7d"

/-- `%v` of a `graph.Edge`. -/
def edgeText (id : UInt64) (type : UInt32) (src dst : UInt64) (props : List Str) : Str :=
  lit "\x7b" ++ natText id.toNat ++ lit " \x7b"
    ++ spaced [natText type.toNat, natText src.toNat, natText dst.toNat, mapText props]
    ++ lit "\x7d\x7d"

mutual
/-- Go's `%v`. -/
def sprint : Val → Str
  | .null => lit "<nil>"
  | .bool b => lit (toString b)
  | .int i => lit (toString i.toInt)
  | .goInt i => lit (toString i.toInt)
  | .float f => lit f.text
  | .str s => s
  | .list items => bracketed (sprintItems items)
  | .map entries => mapText (sprintEntries entries)
  | .node ⟨id, labels, props⟩ => nodeText id labels (sprintProps props)
  | .edge ⟨id, type, src, dst, props⟩ => edgeText id type src dst (sprintProps props)
  | .edges items => bracketed (sprintEdges items)
  | .path nodes rels =>
    lit "\x7b" ++ bracketed (sprintNodes nodes) ++ lit " " ++ bracketed (sprintEdges rels) ++ lit "\x7d"
  | .other type => lit type
termination_by structural v => v

def sprintItems : List Val → List Str
  | [] => []
  | v :: rest => sprint v :: sprintItems rest
termination_by structural l => l

def sprintEntries : List (Str × Val) → List Str
  | [] => []
  | (k, v) :: rest => (k ++ lit ":" ++ sprint v) :: sprintEntries rest
termination_by structural l => l

def sprintProps : List (UInt32 × Val) → List Str
  | [] => []
  | (k, v) :: rest => (natText k.toNat ++ lit ":" ++ sprint v) :: sprintProps rest
termination_by structural l => l

def sprintNodes : List (NodeOf Val) → List Str
  | [] => []
  | ⟨id, labels, props⟩ :: rest => nodeText id labels (sprintProps props) :: sprintNodes rest
termination_by structural l => l

def sprintEdges : List (EdgeOf Val) → List Str
  | [] => []
  | ⟨id, type, src, dst, props⟩ :: rest =>
    edgeText id type src dst (sprintProps props) :: sprintEdges rest
termination_by structural l => l
end

/-- The key of a value for grouping and for UNION. -/
def canonKey : Val → Str
  | .null => lit "n"
  | .bool b => if b then lit "b:1" else lit "b:0"
  | .int i => lit ("i:" ++ toString i.toInt)
  | .float f => lit ("f:" ++ f.text)
  | .str s => lit "s:" ++ s
  | .node n => lit ("N:" ++ toString n.id.toNat)
  | .edge e => lit ("E:" ++ toString e.id.toNat)
  | .path nodes rels => lit "P:" ++ pathIDs nodes rels
  | v => lit "?:" ++ sprint v

def canonKeyList : List Val → Str
  | [] => []
  | [v] => canonKey v
  | v :: rest => canonKey v ++ lit "|" ++ canonKeyList rest

end Intreccio.Exec
