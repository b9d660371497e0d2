import Intreccio.Foundation.Collect
import Intreccio.Exec.Building
import Intreccio.Exec.Run

/-! What a query that succeeds has done (`Run` and `drain` of `internal/exec/exec.go`): it has planned its
clauses, run the plan to its end and read the columns of the rows.
-/

namespace Intreccio.Exec

open Kv Words Graph Ast Plan Program Pull List Sema

section

variable {ctx : Context} {s s' : Store} {p : Plan.Op} {columns : List Str} {turns : Nat} {c : Choices}
  {pre : List Clause} {r : Return} {out : List (List Val)}

/-- The result of a query with the given columns; without columns its rows are not kept. -/
def cells (columns : List Str) (rows : List Row) : List (List Val) :=
  if columns.isEmpty then [] else rows.map (fun b => columns.map (cell b))

/-- Draining a machine is a run up to its end, by induction on the turns. -/
theorem runs_of_drain {count : Nat} {x : Machine × Argument}
    (ran : (drain ctx columns turns count x).run s = (.ok out, s'))
    : ∃ outs y mid z, Runs (turn ctx) x s outs y mid ∧ (turn ctx y).run mid = (.ok (.done, z), s')
      ∧ out = cells columns (outs.map Prod.fst) := by
  induction turns generalizing count x s out with
  | zero => cases ran
  | succ turns ih =>
    obtain ⟨⟨t, x'⟩, mid, turn, ran⟩ := run_bind_ok.mp ran
    cases t with
    | again =>
      obtain ⟨outs, y, last, z, later, ended, same⟩ := ih ran
      exact ⟨outs, y, last, z, .first turn nofun later, ended, same⟩
    | done =>
      cases ran
      exact ⟨[], x, s, x', .start, turn, by simp [cells]⟩
    | row b =>
      dsimp only at ran
      split at ran
      next unnamed =>
        obtain ⟨outs, y, last, z, later, ended, rfl⟩ := ih ran
        exact ⟨(b, mid) :: outs, y, last, z, .first turn nofun later, ended, by simp [cells, unnamed]⟩
      next named =>
        split at ran
        · cases ran
        · obtain ⟨more, _, others, ran⟩ := run_bind_ok.mp ran
          cases ran
          obtain ⟨outs, y, last, z, later, ended, rfl⟩ := ih others
          exact ⟨(b, mid) :: outs, y, last, z, .first turn nofun later, ended, by simp [cells, named]⟩

theorem planClauses_snoc (cat : Plan.Catalog) (last : Clause) (pl : Planner)
    : planClauses cat (pre ++ [last]) pl = (planClauses cat pre pl >>= (planClause cat · last)) := by
  simp only [planClauses_append, planClauses, bind_pure]

theorem isNil_planReturn (pl : Planner) : (planReturn pl r).plan.isNil = false := by
  have projected : (projectOrAggregate pl r.star r.items r.distinct).plan.isNil = false := by
    simp only [projectOrAggregate, Planner.bindAll_keeps]
    split <;> rfl
  have sorted : (applyTail (projectOrAggregate pl r.star r.items r.distinct).plan r.orderBy none none).isNil
      = false := by
    rw [applyTail]
    split
    · exact projected
    · rfl
  cases skipped : r.skip <;> cases limited : r.limit <;> rw [planReturn, skipped, limited]
  · exact sorted
  all_goals rfl

theorem query_ok {q : Query} (accepted : analyze q = .ok columns)
    (ran : query ctx q turns c s = (.ok out, s'))
    : ∃ p, plan q (planCatalog s) = .ok p ∧ (run ctx p columns turns c).run s = (.ok out, s') := by
  simp only [query, accepted, runQuery] at ran
  cases planned : plan q (planCatalog s) with
  | error e =>
    rw [planned] at ran
    cases ran
  | ok p =>
    rw [planned] at ran
    obtain ⟨result, after, finished⟩ : ∃ result after, (run ctx p columns turns c).run s = (result, after) :=
      ⟨_, _, rfl⟩
    refine ⟨p, rfl, ?_⟩
    dsimp only at ran
    rw [finished] at ran ⊢
    cases result with
    | error e => cases ran
    | ok out =>
      cases ran
      rfl

end

end Intreccio.Exec
