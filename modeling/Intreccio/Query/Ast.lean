import Intreccio.Value

/-! The syntax of queries (`query/ast/ast.go`), without source positions.
Labels, types and property keys are names; an empty name stands for an absent one.
-/

namespace Intreccio.Ast

open Kv

inductive UnaryOp where
  | not
  | minus
  | isNull
  | isNotNull
deriving DecidableEq

inductive BinaryOp where
  | add
  | sub
  | mul
  | div
  | mod
  | eq
  | ne
  | lt
  | le
  | gt
  | ge
  | and
  | or
  | matches
  | startsWith
  | endsWith
  | contains
  | inList
deriving DecidableEq

inductive QuantifierKind where
  | any
  | all
  | none
  | single
deriving DecidableEq

/-- Expressions. A case with an operand is the simple form, one without the searched form. -/
inductive Expr where
  | literal (value : Scalar)
  | param (name : Str)
  | var (name : Str)
  | propertyAccess (target : Expr) (key : Str)
  | subscript (target index : Expr)
  | slice (target : Expr) (lower upper : Option Expr)
  | listComprehension (loopVar : Str) (list : Expr) (cond map : Option Expr)
  | quantifier (kind : QuantifierKind) (loopVar : Str) (list cond : Expr)
  | unary (op : UnaryOp) (expr : Expr)
  | binary (op : BinaryOp) (left right : Expr)
  | labelsPredicate (expr : Expr) (labels : List Str)
  | listLiteral (elements : List Expr)
  | mapLiteral (entries : List (Str × Expr))
  | caseOf (operand : Option Expr) (whens : List (Expr × Expr)) (otherwise : Option Expr)
  | functionCall (name : Str) (distinct star : Bool) (args : List Expr)
deriving Inhabited

inductive Direction where
  | dirOut
  | dirIn
  | dirBoth
deriving DecidableEq

inductive ShortestKind where
  | notShortest
  | shortestOne
  | shortestAll
deriving DecidableEq

structure NodePattern where
  var : Str
  labels : List Str
  props : OrderedMap Str Expr

/-- With `varLength`, a hop bound of -1 is unspecified. -/
structure RelPattern where
  var : Str
  types : List Str
  props : OrderedMap Str Expr
  direction : Direction
  varLength : Bool
  minHops : Int
  maxHops : Int

structure PatternChain where
  rel : RelPattern
  node : NodePattern

/-- A start node and a chain of relationships and nodes; `var` names the path. -/
structure PatternPart where
  var : Str
  start : NodePattern
  chain : List PatternChain
  shortest : ShortestKind

structure Match where
  isOptional : Bool
  parts : List PatternPart
  cond : Option Expr

/-- An element of a projection; an empty alias is absent. -/
structure ReturnItem where
  expr : Expr
  asName : Str

structure SortItem where
  expr : Expr
  desc : Bool

structure With where
  distinct : Bool
  star : Bool
  items : List ReturnItem
  orderBy : List SortItem
  skip : Option Expr
  limit : Option Expr
  cond : Option Expr

structure Return where
  distinct : Bool
  star : Bool
  items : List ReturnItem
  orderBy : List SortItem
  skip : Option Expr
  limit : Option Expr

/-- The target of a property assignment is `target.key`. -/
inductive SetClause where
  | setProperty (target : Expr) (key : Str) (value : Expr)
  | setLabels (var : Str) (labels : List Str)
  | setMap (var : Str) (value : Expr) (replace : Bool)

inductive RemoveClause where
  | removeProperty (target : Expr) (key : Str)
  | removeLabels (var : Str) (labels : List Str)

structure Merge where
  part : PatternPart
  onCreate : List SetClause
  onMatch : List SetClause

/-- With `rel`, the label is a relationship type. -/
structure CreateIndex where
  name : Str
  label : Str
  property : Str
  rel : Bool

inductive Clause where
  | ofMatch (m : Match)
  | ofWith (w : With)
  | ofReturn (r : Return)
  | ofCreate (parts : List PatternPart)
  | ofMerge (m : Merge)
  | ofSet (items : List SetClause)
  | ofRemove (items : List RemoveClause)
  | ofUnwind (expr : Expr) (asName : Str)
  | ofDelete (detach : Bool) (exprs : List Expr)
  | ofCreateIndex (c : CreateIndex)
  | ofDropIndex (name : Str) (ifExists : Bool)
  | ofShowIndexes
  | ofCreateConstraint (name label property : Str)
  | ofDropConstraint (name : Str) (ifExists : Bool)
  | ofShowConstraints

structure QueryUnion where
  all : Bool
  clauses : List Clause

structure Query where
  clauses : List Clause
  unions : List QueryUnion

/-- `strings.ToLower` as far as it can produce an ASCII name: besides the ASCII capitals only
U+0130 and U+212A have an ASCII lower case.
-/
def lowerName : Str → Str
  | 0xC4 :: 0xB0 :: rest => 0x69 :: lowerName rest
  | 0xE2 :: 0x84 :: 0xAA :: rest => 0x6B :: lowerName rest
  | c :: rest => (if 0x41 ≤ c ∧ c ≤ 0x5A then c + 0x20 else c) :: lowerName rest
  | [] => []

def aggregates : List Str :=
  [lit "count", lit "sum", lit "avg", lit "min", lit "max", lit "collect"]

/-- Whether a function name, in any case, is that of an aggregate. -/
def isAggregate (name : Str) : Bool := lowerName name ∈ aggregates

end Intreccio.Ast
