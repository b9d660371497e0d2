import Intreccio.Exec.Machine
import Intreccio.Query.Planner
import Intreccio.Query.Sema

/-! Running a plan (`internal/exec/exec.go`) and a query (`intreccio.go`).
The source asks its context in every loop whether to stop. Here the context allows a number of
turns, and stops when they are used up.
-/

namespace Intreccio.Exec

open Kv Words Ast Plan

/-- `context.DeadlineExceeded`. -/
def errDeadline : Err := .plain "context deadline exceeded"

def errResultLimit : Err := .plain "exec: query result exceeds the configured row limit"

/-- The argument outside of every apply, which nothing reads. -/
def noArgument : Argument := ⟨.empty, true⟩

def turn (ctx : Context) (x : Machine × Argument) : Txn (Turn Row × Machine × Argument) :=
  step ctx x.1 x.2

/-- Drain a machine: the rows by column. Without columns it runs for its effects only, and a row
beyond the cap is an error.
-/
def drain (ctx : Context) (columns : List Str) : Nat → Nat → Machine × Argument → Txn (List (List Val))
  | 0, _, _ => throw errDeadline
  | turns + 1, count, x => do
      match ← turn ctx x with
      | (.again, x) => drain ctx columns turns count x
      | (.done, _) => return []
      | (.row b, x) =>
        if columns.isEmpty then drain ctx columns turns count x
        else if 0 < ctx.maxRows ∧ ctx.maxRows ≤ count then throw errResultLimit
        else do
          let more ← drain ctx columns turns (count + 1) x
          return columns.map (cell b) :: more

def run (ctx : Context) (root : Plan.Op) (columns : List Str) (turns : Nat) (c : Choices)
    : Txn (List (List Val)) := do
  let m ← buildWith ctx root none c
  drain ctx columns turns 0 (m, noArgument)

/-- Whether a registry has an index on the named pair; an unknown name has none. -/
def catalogHas (lookupOwner : Str → Txn (Option UInt32)) (has : UInt32 → UInt32 → Txn Bool)
    (owner key : Str) : Txn Bool := do
  match ← seekIDs lookupOwner owner key with
  | none => return false
  | some (ownerID, keyID) => has ownerID keyID

/-- The indexes that the planner sees; a failed lookup counts as no index. -/
def planCatalog (s : Store) : Plan.Catalog where
  hasIndex := fun label key =>
    ((catalogHas Catalog.lookupLabel Catalog.hasIndex label key).run s).1.toOption = some true
  hasRelIndex := fun relType key =>
    ((catalogHas Catalog.lookupType Catalog.hasRelIndex relType key).run s).1.toOption = some true

/-- Plan and execute an analyzed query: its rows, and the state of the transaction after it. -/
def runQuery (ctx : Context) (q : Query) (columns : List Str) (turns : Nat) (c : Choices) (s : Store)
    : Except Err (List (List Val)) × Store :=
  match plan q (planCatalog s) with
  | .error e => (.error e, s)
  | .ok p => (run ctx p columns turns c).run s

/-- Analyze a query and run it in a transaction (`Tx.Query`). -/
def query (ctx : Context) (q : Query) (turns : Nat) (c : Choices) (s : Store)
    : Except Err (List (List Val)) × Store :=
  match Sema.analyze q with
  | .error e => (.error e, s)
  | .ok columns =>
    let (r, s') := runQuery ctx q columns turns c s
    (r.mapError (.because "query"), s')

end Intreccio.Exec
