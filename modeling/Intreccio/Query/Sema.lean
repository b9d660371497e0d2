import Intreccio.Query.Format

/-! Semantic analysis (`query/sema`): variable scopes, the use of aggregates and the columns of
a query. An error carries its message without the source position. Property maps are checked
in key order, which only decides which of several errors is reported.
-/

namespace Intreccio.Sema

open Kv Ast

/-- The variables in scope, in the order of their definition. -/
abbrev Scope := List Str

/-- The first definition wins; a later one is a reference. -/
def define (sc : Scope) (name : Str) : Scope := if name ∈ sc then sc else sc ++ [name]

def undefinedVariable (name : Str) : Err := .text (lit "undefined variable: " ++ name)

mutual
def checkExpr (sc : Scope) (inAgg : Bool) : Expr → Except Err Unit
  | .literal _ => return ()
  | .param _ => return ()
  | .var name => if name ∈ sc then return () else throw (undefinedVariable name)
  | .propertyAccess target _ => checkExpr sc inAgg target
  | .listComprehension loopVar list cond map => do
      checkExpr sc inAgg list
      checkOpt (define sc loopVar) inAgg cond
      checkOpt (define sc loopVar) inAgg map
  | .quantifier _ loopVar list cond => do
      checkExpr sc inAgg list
      checkExpr (define sc loopVar) inAgg cond
  | .subscript target index => do
      checkExpr sc inAgg target
      checkExpr sc inAgg index
  | .slice target lower upper => do
      checkExpr sc inAgg target
      checkOpt sc inAgg lower
      checkOpt sc inAgg upper
  | .unary _ e => checkExpr sc inAgg e
  | .binary _ l r => do
      checkExpr sc inAgg l
      checkExpr sc inAgg r
  | .labelsPredicate e _ => checkExpr sc inAgg e
  | .listLiteral elements => checkAll sc inAgg elements
  | .mapLiteral entries => checkEntries sc inAgg entries
  | .caseOf operand whens otherwise => do
      checkOpt sc inAgg operand
      checkWhens sc inAgg whens
      checkOpt sc inAgg otherwise
  | .functionCall name _ _ args =>
    if isAggregate name && inAgg then
      throw (.plain "aggregation nested inside another aggregation")
    else checkAll sc (inAgg || isAggregate name) args
termination_by structural e => e

def checkOpt (sc : Scope) (inAgg : Bool) : Option Expr → Except Err Unit
  | none => return ()
  | some e => checkExpr sc inAgg e
termination_by structural e => e

def checkAll (sc : Scope) (inAgg : Bool) : List Expr → Except Err Unit
  | [] => return ()
  | e :: rest => do
      checkExpr sc inAgg e
      checkAll sc inAgg rest
termination_by structural l => l

def checkEntries (sc : Scope) (inAgg : Bool) : List (Str × Expr) → Except Err Unit
  | [] => return ()
  | (_, e) :: rest => do
      checkExpr sc inAgg e
      checkEntries sc inAgg rest
termination_by structural l => l

def checkWhens (sc : Scope) (inAgg : Bool) : List (Expr × Expr) → Except Err Unit
  | [] => return ()
  | (cond, result) :: rest => do
      checkExpr sc inAgg cond
      checkExpr sc inAgg result
      checkWhens sc inAgg rest
termination_by structural l => l
end

/-- The named variables of a pattern part in the order they are defined. -/
def partVars (part : PatternPart) : List Str :=
  (part.var :: part.start.var :: part.chain.flatMap (fun ch => [ch.rel.var, ch.node.var])).filter
    (· ≠ [])

/-- The property maps of a pattern part. -/
def partProps (part : PatternPart) : List (Str × Expr) :=
  part.start.props.entries
    ++ part.chain.flatMap (fun ch => ch.rel.props.entries ++ ch.node.props.entries)

/-- Define the variables of a pattern, then check its property maps, which may use them all. -/
def introducePattern (sc : Scope) (parts : List PatternPart) : Except Err Scope := do
  let sc := (parts.flatMap partVars).foldl define sc
  checkEntries sc false (parts.flatMap partProps)
  return sc

def plainVariable (n : NodePattern) : Bool :=
  n.var ≠ [] && n.labels.isEmpty && n.props.entries.isEmpty

/-- The supported form of a shortest path. -/
def checkShortest (part : PatternPart) : Except Err Unit :=
  if part.shortest = .notShortest then return ()
  else
    match part.chain with
    | [ch] =>
      if !ch.rel.varLength then
        throw (.plain "shortestPath needs a variable-length relationship, e.g. [*] or [:T*..5]")
      else if 1 < ch.rel.minHops then
        throw (.plain "shortestPath supports a minimum length of 0 or 1 only")
      else if !ch.rel.props.entries.isEmpty then
        throw (.plain "relationship properties are not supported in shortestPath")
      else if plainVariable part.start && plainVariable ch.node then return ()
      else
        throw (.plain ("shortestPath endpoints must be plain variables bound by an earlier "
          ++ "pattern, e.g. MATCH (a \x7b..\x7d), (b \x7b..\x7d), p = shortestPath((a)-[*]-(b))"))
    | _ => throw (.plain "shortestPath needs exactly one relationship pattern")

def checkShortests : List PatternPart → Except Err Unit
  | [] => return ()
  | part :: rest => do
      checkShortest part
      checkShortests rest

def rejectShortest (parts : List PatternPart) : Except Err Unit :=
  if parts.any (·.shortest ≠ .notShortest) then
    throw (.plain "shortestPath can only be used in MATCH")
  else return ()

def needVariable (sc : Scope) (name : Str) : Except Err Unit :=
  if name ∈ sc then return () else throw (undefinedVariable name)

def checkSetClause (sc : Scope) : SetClause → Except Err Unit
  | .setProperty target _ value => do
      checkExpr sc false target
      checkExpr sc false value
  | .setLabels var _ => needVariable sc var
  | .setMap var value _ => do
      needVariable sc var
      checkExpr sc false value

def checkSetClauses (sc : Scope) : List SetClause → Except Err Unit
  | [] => return ()
  | item :: rest => do
      checkSetClause sc item
      checkSetClauses sc rest

def checkRemoveClauses (sc : Scope) : List RemoveClause → Except Err Unit
  | [] => return ()
  | .removeProperty target _ :: rest => do
      checkExpr sc false target
      checkRemoveClauses sc rest
  | .removeLabels var _ :: rest => do
      needVariable sc var
      checkRemoveClauses sc rest

def checkProjectionTail (sc : Scope) (orderBy : List SortItem) (skip limit : Option Expr)
    : Except Err Unit := do
  checkAll sc false (orderBy.map SortItem.expr)
  checkOpt sc false skip
  checkOpt sc false limit

/-- The scope after a WITH; an expression that is not a variable needs an alias. -/
def withNames : List ReturnItem → Scope → Except Err Scope
  | [], next => return next
  | item :: rest, next =>
    if item.asName ≠ [] then withNames rest (define next item.asName)
    else
      match item.expr with
      | .var name => withNames rest (define next name)
      | _ => throw (.plain "expressions in WITH must have an alias (AS)")

def analyzeWith (sc : Scope) (w : With) : Except Err Scope := do
  checkAll sc false (w.items.map ReturnItem.expr)
  let next ← withNames w.items (if w.star then sc else [])
  checkProjectionTail next w.orderBy w.skip w.limit
  checkOpt next false w.cond
  return next

def itemColumn (item : ReturnItem) : Str :=
  if item.asName = [] then format item.expr else item.asName

def columns (sc : Scope) (star : Bool) (items : List ReturnItem) : List Str :=
  (if star then sc else []) ++ items.map itemColumn

/-- ORDER BY, SKIP and LIMIT of a RETURN may use the variables in scope and the columns. -/
def analyzeReturn (sc : Scope) (r : Return) : Except Err (List Str) := do
  checkAll sc false (r.items.map ReturnItem.expr)
  if r.star && sc.isEmpty && r.items.isEmpty then
    throw (.plain "RETURN * is not allowed with no variables in scope")
  let tail := (r.items.map itemColumn).foldl define sc
  checkProjectionTail tail r.orderBy r.skip r.limit
  return columns sc r.star r.items

/-- The scope and the columns after a clause. -/
def analyzeClause (sc : Scope) (cols : List Str) : Clause → Except Err (Scope × List Str)
  | .ofMatch m => do
      checkShortests m.parts
      let sc ← introducePattern sc m.parts
      checkOpt sc false m.cond
      return (sc, cols)
  | .ofCreate parts => do
      rejectShortest parts
      let sc ← introducePattern sc parts
      return (sc, cols)
  | .ofMerge m => do
      rejectShortest [m.part]
      let sc ← introducePattern sc [m.part]
      checkSetClauses sc m.onCreate
      checkSetClauses sc m.onMatch
      return (sc, cols)
  | .ofSet items => do
      checkSetClauses sc items
      return (sc, cols)
  | .ofRemove items => do
      checkRemoveClauses sc items
      return (sc, cols)
  | .ofUnwind e asName => do
      checkExpr sc false e
      return (define sc asName, cols)
  | .ofDelete _ exprs => do
      checkAll sc false exprs
      return (sc, cols)
  | .ofWith w => do
      let sc ← analyzeWith sc w
      return (sc, cols)
  | .ofReturn r => do
      let cols ← analyzeReturn sc r
      return (sc, cols)
  | .ofShowIndexes => return (sc, [lit "name", lit "label", lit "property", lit "entity"])
  | .ofShowConstraints => return (sc, [lit "name", lit "label", lit "property", lit "type"])
  | .ofCreateIndex _ | .ofDropIndex _ _ | .ofCreateConstraint _ _ _ | .ofDropConstraint _ _ =>
    return (sc, cols)

def isSchemaCommand : Clause → Bool
  | .ofCreateIndex _ | .ofDropIndex _ _ | .ofShowIndexes | .ofCreateConstraint _ _ _
  | .ofDropConstraint _ _ | .ofShowConstraints => true
  | _ => false

/-- The clauses that may end a query. -/
def endsQuery : Clause → Bool
  | .ofMatch _ | .ofWith _ | .ofUnwind _ _ => false
  | _ => true

def isReturn : Clause → Bool
  | .ofReturn _ => true
  | _ => false

def analyzeClauses : List Clause → Scope → List Str → Except Err (List Str)
  | [], _, cols => return cols
  | clause :: rest, sc, cols => do
      if isReturn clause && !rest.isEmpty then throw (.plain "RETURN must be the last clause")
      let (sc, cols) ← analyzeClause sc cols clause
      analyzeClauses rest sc cols

/-- One arm: it is not empty, a schema command stands alone, and the last clause ends it. -/
def analyzeArm (clauses : List Clause) : Except Err (List Str) := do
  if clauses.isEmpty then throw (.plain "empty query")
  if clauses.any isSchemaCommand && clauses.length ≠ 1 then
    throw (.plain "schema commands must be the only clause")
  let cols ← analyzeClauses clauses [] []
  if !(clauses.getLast?.elim false endsQuery) then
    throw (.plain "incomplete query: a RETURN or a writing clause is required")
  return cols

/-- Go's `%v` of a list of strings. -/
def listText (l : List Str) : Str := lit "[" ++ joinStr (lit " ") l ++ lit "]"

/-- The other arms must have the columns of the first, by name. -/
def analyzeUnions (cols : List Str) : List QueryUnion → Except Err Unit
  | [] => return ()
  | u :: rest => do
      let armCols ← analyzeArm u.clauses
      if cols ≠ armCols then
        throw (.text (lit "UNION arms must produce the same columns (got " ++ listText cols
          ++ lit " vs " ++ listText armCols ++ lit ")"))
      analyzeUnions cols rest

def analyze (q : Query) : Except Err (List Str) := do
  let cols ← analyzeArm q.clauses
  if !q.unions.isEmpty && q.clauses.any isSchemaCommand then
    throw (.plain "schema commands must be the only clause")
  analyzeUnions cols q.unions
  return cols

end Intreccio.Sema
