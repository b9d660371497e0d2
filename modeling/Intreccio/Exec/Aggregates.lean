import Intreccio.Exec.Eval
import Intreccio.Query.Plan

/-! Grouping and the aggregate functions (`internal/exec/aggregate.go`). -/

namespace Intreccio.Exec

open Kv Graph Ast Plan

inductive AggKind where
  | count
  | sum
  | avg
  | min
  | max
  | collect
deriving DecidableEq

/-- One aggregate; without an argument it is `count(*)`. -/
structure AggSpec where
  kind : AggKind
  arg : Option Expr
  distinct : Bool

def aggKindOf (name : Str) : Option AggKind :=
  let low := lowerName name
  if low = lit "count" then some .count
  else if low = lit "sum" then some .sum
  else if low = lit "avg" then some .avg
  else if low = lit "min" then some .min
  else if low = lit "max" then some .max
  else if low = lit "collect" then some .collect
  else none

/-- An aggregate item must be a direct call of an aggregate function. -/
def parseAggFunc (ctx : Context) (it : ProjItem) : Except Err AggSpec :=
  match it.expr with
  | .functionCall name distinct star args =>
    match aggKindOf name with
    | none => .error (.text (lit "unknown aggregate function " ++ name))
    | some kind =>
      if star then
        if kind = .count then .ok ⟨kind, none, distinct⟩
        else .error (.text (name ++ lit "(*) is not supported"))
      else
        match args with
        | [arg] => .ok ⟨kind, some arg, distinct⟩
        | _ => .error (.text (name ++ lit " expects exactly one argument"))
  | _ =>
    .error (.text (lit "aggregate " ++ ctx.lib.quote it.column
      ++ lit " must be a direct aggregate function call"))

def parseAggFuncs (ctx : Context) : List ProjItem → Except Err (List AggSpec)
  | [] => .ok []
  | it :: rest => do
      let s ← parseAggFunc ctx it
      let more ← parseAggFuncs ctx rest
      return s :: more

/-- The running state of an aggregate. A sum is an integer until a float is added. -/
structure Accumulator where
  count : Nat
  sum : Binary64
  intSum : Int64
  isInt : Bool
  minVal : Val
  maxVal : Val
  list : List Val
  seen : List Str

def newAccumulator (s : AggSpec) : Accumulator :=
  ⟨0, .zero false, 0, s.kind = .sum, .null, .null, [], []⟩

def Accumulator.addSum (a : Accumulator) : Val → Except Err Accumulator
  | .int n =>
    if a.isInt then
      match addInt a.intSum n with
      | .ok total => .ok { a with intSum := total }
      | .error e => .error (.because "sum" e)
    else .ok { a with sum := a.sum.add (floatOf n) }
  | .float f =>
    if a.isInt then .ok { a with sum := (floatOf a.intSum).add f, isInt := false }
    else .ok { a with sum := a.sum.add f }
  | v => .error (.plain ("sum: expected a number, got " ++ v.typeName))

/-- Keep `v` when nothing was kept before, or when it compares as wanted with what was. -/
def better (accept : Ordering → Bool) (v old : Val) : Val :=
  if isNull old then v
  else if (compareValues v old).any accept then v
  else old

def Accumulator.addValue (a : Accumulator) (kind : AggKind) (v : Val) : Except Err Accumulator :=
  match kind with
  | .count => .ok { a with count := a.count + 1 }
  | .sum => a.addSum v
  | .avg =>
    match toFloat v with
    | some f => .ok { a with sum := a.sum.add f, count := a.count + 1 }
    | none => .error (.plain ("avg: expected a number, got " ++ v.typeName))
  | .min => .ok { a with minVal := better Ordering.isLT v a.minVal }
  | .max => .ok { a with maxVal := better Ordering.isGT v a.maxVal }
  | .collect => .ok { a with list := a.list ++ [v] }

/-- Nulls are skipped, and with DISTINCT every value that was seen. -/
def Accumulator.add (ctx : Context) (a : Accumulator) (b : Row) (s : AggSpec) (c : Choices)
    : Txn Accumulator :=
  match s.arg with
  | none => return { a with count := a.count + 1 }
  | some arg => do
      let v ← eval ctx arg b c
      if isNull v then return a
      if s.distinct then
        if canonKey v ∈ a.seen then return a
        else Program.ofExcept (({ a with seen := canonKey v :: a.seen }).addValue s.kind v)
      else Program.ofExcept (a.addValue s.kind v)

def Accumulator.result (a : Accumulator) : AggKind → Val
  | .count => .int (Int64.ofNat a.count)
  | .sum => if a.isInt then .int a.intSum else .float a.sum
  | .avg => if a.count = 0 then .null else .float (a.sum.div (floatOf (Int64.ofNat a.count)))
  | .min => a.minVal
  | .max => a.maxVal
  | .collect => .list a.list

structure Group where
  key : Str
  keys : List Val
  accs : List Accumulator

/-- Without group keys there is one group from the start. -/
def seedGroups (groupKeys : List ProjItem) (specs : List AggSpec) : List Group :=
  if groupKeys.isEmpty then [⟨[], [], specs.map newAccumulator⟩] else []

def evalItems (ctx : Context) (b : Row) : List ProjItem → Choices → Txn (List Val)
  | [], _ => return []
  | it :: rest, c => do
      let v ← eval ctx it.expr b c.now
      let more ← evalItems ctx b rest c.later
      return v :: more

def addAccs (ctx : Context) (b : Row) : List Accumulator → List AggSpec → Choices
    → Txn (List Accumulator)
  | a :: as, s :: ss, c => do
      let a ← a.add ctx b s c.now
      let more ← addAccs ctx b as ss c.later
      return a :: more
  | _, _, _ => return []

/-- Put a row into its group, which is opened when it is new. -/
def addRow (ctx : Context) (groupKeys : List ProjItem) (specs : List AggSpec) (groups : List Group)
    (b : Row) (c : Choices) : Txn (List Group) := do
  let keys ← evalItems ctx b groupKeys (c.sub 0)
  let key := canonKeyList keys
  match groups.find? (fun g => g.key = key) with
  | some g => do
      let accs ← addAccs ctx b g.accs specs (c.sub 1)
      return groups.map (fun h => if h.key = key then { h with accs := accs } else h)
  | none => do
      let accs ← addAccs ctx b (specs.map newAccumulator) specs (c.sub 1)
      return groups ++ [⟨key, keys, accs⟩]

def setColumns (b : Row) (items : List ProjItem) (vs : List Val) : Row :=
  (items.zip vs).foldl (fun b e => b.set e.1.column e.2) b

def groupRow (groupKeys aggs : List ProjItem) (specs : List AggSpec) (g : Group) : Row :=
  let row := setColumns .empty groupKeys g.keys
  setColumns row aggs ((g.accs.zip specs).map (fun (a, s) => a.result s.kind))

end Intreccio.Exec
