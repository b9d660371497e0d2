import Intreccio.Exec.Eval
import Intreccio.Query.Planner

/-! An expression reads no variables but those that the planner lists for it. -/

namespace Intreccio.Exec

open Kv Words Graph Ast Plan List

/-- Two rows bind these variables to the same values, or leave the same ones unbound. -/
def AgreeOn (vars : List Str) (b b' : Row) : Prop := ∀ v ∈ vars, b.get v = b'.get v

variable {vars vars' : List Str}

@[simp]
theorem agreeOn_append {b b' : Row}
    : AgreeOn (vars ++ vars') b b' ↔ AgreeOn vars b b' ∧ AgreeOn vars' b b' := by
  simp only [AgreeOn, mem_append, or_imp, forall_and]

/-- The loop variable has the same value in both rows, whatever it hides. -/
theorem AgreeOn.set {b b' : Row} {x : Str} (agree : AgreeOn (vars.filter (· ≠ x)) b b') (v : Val)
    : AgreeOn vars (b.set x v) (b'.set x v) := by
  intro name member
  rw [OrderedMap.get_set, OrderedMap.get_set]
  split
  case isTrue => rfl
  case isFalse other => exact agree name (mem_filter.mpr ⟨member, by simpa using other⟩)

mutual
theorem eval_of_agree (ctx : Context) (e : Expr) {b b' : Row} (agree : AgreeOn (exprVars e) b b') (c : Choices)
    : eval ctx e b c = eval ctx e b' c := by
  cases e with
  | literal value => rfl
  | param name => rfl
  | var name =>
    have same : b.get name = b'.get name := agree name (mem_singleton_self name)
    rw [eval, eval, same]
  | propertyAccess target key =>
    rw [eval, eval, eval_of_agree ctx target agree]
  | listComprehension loopVar list cond map =>
    rw [exprVars, agreeOn_append] at agree
    obtain ⟨outer, inner⟩ := agree
    have keep (item : Val) := evalOpt_of_agree ctx cond (agreeOn_append.mp (inner.set item)).1
    have value (item : Val) := evalOpt_of_agree ctx map (agreeOn_append.mp (inner.set item)).2
    rw [eval, eval, eval_of_agree ctx list outer]
    simp only [keep, value]
  | quantifier kind loopVar list cond =>
    rw [exprVars, agreeOn_append] at agree
    obtain ⟨outer, inner⟩ := agree
    have body (item : Val) := eval_of_agree ctx cond (inner.set item)
    rw [eval, eval, eval_of_agree ctx list outer]
    simp only [body]
  | subscript target index =>
    rw [exprVars, agreeOn_append] at agree
    rw [eval, eval, eval_of_agree ctx target agree.1, eval_of_agree ctx index agree.2]
  | slice target lower upper =>
    rw [exprVars, agreeOn_append, agreeOn_append] at agree
    rw [eval, eval, eval_of_agree ctx target agree.1.1, evalOpt_of_agree ctx lower agree.1.2]
    simp only [evalOpt_of_agree ctx upper agree.2]
  | unary op e => rw [eval, eval, eval_of_agree ctx e agree]
  | binary op left right =>
    rw [exprVars, agreeOn_append] at agree
    rw [eval, eval, eval_of_agree ctx left agree.1, eval_of_agree ctx right agree.2]
  | labelsPredicate e labels => rw [eval, eval, eval_of_agree ctx e agree]
  | listLiteral elements => rw [eval, eval, evalAll_of_agree ctx elements agree]
  | mapLiteral entries =>
    have each : AgreeOn ((entryVars entries).flatMap Prod.snd) b b' := by
      simpa only [AgreeOn, exprVars, mem_flatMap, mem_insertionSort] using agree
    rw [eval, eval, evalEntries_of_agree ctx entries each]
  | caseOf operand whens otherwise =>
    rw [exprVars, agreeOn_append, agreeOn_append] at agree
    cases operand with
    | none =>
      rw [eval, eval, evalOpt_of_agree ctx otherwise agree.2, evalWhens_of_agree ctx none whens _ agree.1.2]
    | some e =>
      rw [eval, eval, eval_of_agree ctx e agree.1.1, evalOpt_of_agree ctx otherwise agree.2]
      simp only [evalWhens_of_agree ctx _ whens _ agree.1.2]
  | functionCall name distinct star args => rw [eval, eval, evalAll_of_agree ctx args agree]

theorem evalOpt_of_agree (ctx : Context) (e : Option Expr) {b b' : Row} (agree : AgreeOn (optVars e) b b')
    (absent : Val) (c : Choices)
    : evalOpt ctx e absent b c = evalOpt ctx e absent b' c := by
  cases e with
  | none => rfl
  | some e => exact eval_of_agree ctx e agree c

theorem evalAll_of_agree (ctx : Context) (l : List Expr) {b b' : Row} (agree : AgreeOn (listVars l) b b')
    (c : Choices)
    : evalAll ctx l b c = evalAll ctx l b' c := by
  cases l with
  | nil => rfl
  | cons e rest =>
    rw [listVars, agreeOn_append] at agree
    rw [evalAll, evalAll, eval_of_agree ctx e agree.1, evalAll_of_agree ctx rest agree.2]

theorem evalEntries_of_agree (ctx : Context) (l : List (Str × Expr)) {b b' : Row}
    (agree : AgreeOn ((entryVars l).flatMap Prod.snd) b b') (c : Choices)
    : evalEntries ctx l b c = evalEntries ctx l b' c := by
  cases l with
  | nil => rfl
  | cons entry rest =>
    obtain ⟨k, e⟩ := entry
    rw [entryVars, flatMap_cons, agreeOn_append] at agree
    rw [evalEntries, evalEntries, eval_of_agree ctx e agree.1, evalEntries_of_agree ctx rest agree.2]

theorem evalWhens_of_agree (ctx : Context) (operand : Option Val) (l : List (Expr × Expr))
    (otherwise : Txn Val) {b b' : Row} (agree : AgreeOn (whenVars l) b b') (c : Choices)
    : evalWhens ctx operand l otherwise b c = evalWhens ctx operand l otherwise b' c := by
  cases l with
  | nil => rfl
  | cons branch rest =>
    obtain ⟨cond, result⟩ := branch
    rw [whenVars, agreeOn_append, agreeOn_append] at agree
    rw [evalWhens, evalWhens, eval_of_agree ctx cond agree.1.1, eval_of_agree ctx result agree.1.2,
      evalWhens_of_agree ctx operand rest otherwise agree.2]
end

/-- The value of an expression, or its failure, depends on the variables of `exprVars` only; so
what can be sought by has the same value on every row that extends the bound variables.
-/
theorem exprVars_covers (ctx : Context) (e : Expr) (c : Choices)
    : (∀ b b', AgreeOn (exprVars e) b b' → eval ctx e b c = eval ctx e b' c)
      ∧ ∀ (pl : Planner) b b', pl.seekable e = true → (∀ v, pl.isBound v = true → b.get v = b'.get v)
          → eval ctx e b c = eval ctx e b' c := by
  refine ⟨fun b b' agree => eval_of_agree ctx e agree c, fun pl b b' seekable same => ?_⟩
  refine eval_of_agree ctx e (fun v member => same v ?_) c
  rw [Planner.seekable, Bool.and_eq_true, List.all_eq_true] at seekable
  exact seekable.2 v member

end Intreccio.Exec
