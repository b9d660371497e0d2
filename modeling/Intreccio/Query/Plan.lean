import Intreccio.Query.Ast

/-! Physical plans (`query/plan/op.go`).
`nil` is the absent input of the source, which the executor reads as one empty row.
-/

namespace Intreccio.Plan

open Kv Ast

structure ProjItem where
  expr : Expr
  column : Str

structure SortKey where
  expr : Expr
  desc : Bool

/-- A scan over a range of values of an indexed property; it may return more than the range. -/
structure NodeByPropertyRange where
  var : Str
  label : Str
  key : Str
  lower : Option Expr
  upper : Option Expr
  lowerInclusive : Bool
  upperInclusive : Bool
  startsWith : Option Expr

/-- The step of an expand. `toUnused` and `relUnused` mark anonymous elements that nothing
reads, which are bound by ID only.
-/
structure Expand where
  fromVar : Str
  relVar : Str
  toVar : Str
  types : List Str
  dir : Direction
  varLength : Bool
  minHops : Int
  maxHops : Int
  toBound : Bool
  toUnused : Bool
  relUnused : Bool

structure ShortestPath where
  fromVar : Str
  toVar : Str
  pathVar : Str
  relVar : Str
  types : List Str
  dir : Direction
  minHops : Int
  maxHops : Int
  all : Bool

/-- A seek through a relationship index, which binds the relationship and its two ends. -/
structure RelByProperty where
  relVar : Str
  fromVar : Str
  toVar : Str
  dir : Direction
  type : Str
  key : Str
  value : Expr

inductive Op where
  | nil
  | allNodesScan (var : Str)
  | nodeByLabelScan (var label : Str)
  | nodeByProperty (var label key : Str) (value : Expr)
  | nodeByPropertyRange (scan : NodeByPropertyRange)
  | relByProperty (seek : RelByProperty)
  | argument
  | expand (input : Op) (x : Expand)
  | shortestPath (input : Op) (x : ShortestPath)
  | filter (input : Op) (pred : Expr)
  | project (input : Op) (items : List ProjItem) (distinct : Bool)
  | aggregate (input : Op) (groupKeys aggs : List ProjItem) (distinct : Bool)
  | sort (input : Op) (keys : List SortKey)
  | skip (input : Op) (count : Expr)
  | limit (input : Op) (count : Expr)
  | cartesianProduct (left right : Op)
  | unwind (input : Op) (expr : Expr) (asName : Str)
  | outerApply (outer inner : Op) (newVars : List Str)
  | apply (outer inner : Op)
  | union (parts : List Op) (columns : List Str) (all : Bool)
  | create (input : Op) (parts : List PatternPart)
  | merge (input : Op) (m : Merge)
  | setItems (input : Op) (items : List SetClause)
  | remove (input : Op) (items : List RemoveClause)
  | delete (input : Op) (exprs : List Expr) (detach : Bool)
  | createIndex (c : CreateIndex)
  | dropIndex (name : Str) (ifExists : Bool)
  | showIndexes
  | createConstraint (name label property : Str)
  | dropConstraint (name : Str) (ifExists : Bool)
  | showConstraints
deriving Inhabited

end Intreccio.Plan
