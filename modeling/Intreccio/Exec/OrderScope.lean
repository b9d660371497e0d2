import Intreccio.Exec.Coincidence
import Intreccio.Exec.Columns
import Intreccio.Exec.Sorting

/-! The keys of an ORDER BY after RETURN (`sortValue` and `columnKey` of `internal/exec/exec.go`,
`planReturn` of `query/plan/plan.go`).
The keys may use every variable that is in scope before the RETURN, but the planner sorts the projected rows.
There a key is looked up as a column by its text, or evaluated without the variables that were not projected,
and a key that cannot be evaluated counts as null.
-/

namespace Intreccio.Exec

open Kv Kv.Program Words Graph Ast Plan List

/-- The value of a sort key on a row; a key that cannot be evaluated counts as null. -/
def keyValue (ctx : Context) (s : Store) (r : Row) (e : Expr) : Val :=
  match (eval ctx e r .ordered).read s with
  | .ok v => v
  | .error _ => .null

/-- The row before the projection, extended with the columns. -/
def Extends (ctx : Context) (items : List ProjItem) (o : Row × Store) (r : Row) : Prop :=
  ∃ vs, Values ctx o items vs ∧ r = setColumns o.1 items vs

/-- The columns of an extended row. -/
def onlyColumns (items : List ProjItem) (r : Row) : Row :=
  written (items.map (fun it => (it, cell r it.column)))

/-- The key has one value on the extended row, whatever is drawn at random, and the same when the row was projected
and when all rows are sorted.
-/
def Lasting (ctx : Context) (s : Store) (o : Row × Store) (r : Row) (e : Expr) : Prop :=
  ∀ c, (eval ctx e r c).read s = (eval ctx e r .ordered).read s
    ∧ (eval ctx e r c).read o.2 = (eval ctx e r .ordered).read s

/-- The key can be found in the projected rows. If it is a property that has the name of a column, the items of
this name are the property itself, of the same variable as before the projection. Otherwise all variables of the
key are columns.
-/
def Visible (items : List ProjItem) : Expr → Prop
  | .propertyAccess (.var name) key =>
    if name ++ lit "." ++ key ∈ items.map ProjItem.column then
      (∀ it ∈ items, it.column = name ++ lit "." ++ key → it.expr = .propertyAccess (.var name) key)
        ∧ ∀ it ∈ items, it.column = name → it.expr = .var name
    else name ∈ items.map ProjItem.column
  | e => ∀ name ∈ exprVars e, name ∈ items.map ProjItem.column

section

variable {ctx : Context} {s : Store} {items : List ProjItem} {o : Row × Store} {r : Row} {vs : List Val}

/-- What is written over a row hides it, by induction on what is written. -/
theorem get_foldl_columns (l : List (ProjItem × Val)) (b : Row) (name : Str)
    : (l.foldl (fun b e => b.set e.1.column e.2) b).get name = ((written l).get name).or (b.get name) := by
  induction l using List.reverseRecOn with
  | nil => rfl
  | append_singleton rest last ih =>
    rw [written, foldl_append, foldl_append]
    simp only [foldl_cons, foldl_nil, OrderedMap.get_set]
    split
    · rfl
    · exact ih

/-- Only columns are written. -/
theorem get_written_eq_none {l : List (ProjItem × Val)} {name : Str} (unlisted : ∀ e ∈ l, e.1.column ≠ name)
    : (written l).get name = none := by
  induction l using List.reverseRecOn with
  | nil => rfl
  | append_singleton rest last ih =>
    rw [written, foldl_append, foldl_cons, foldl_nil, OrderedMap.get_set, if_neg]
    · exact ih fun e member => unlisted e (mem_append_left _ member)
    · exact Ne.symm (unlisted last (by simp))

theorem get_unlisted {name : Str} (unlisted : name ∉ items.map ProjItem.column)
    : (written (items.zip vs)).get name = none :=
  get_written_eq_none fun _ member same => unlisted (same ▸ mem_map_of_mem (of_mem_zip member).1)

/-- Each column is written with the value of one of its items. -/
theorem get_column (sizes : items.length = vs.length) {name : Str} (column : name ∈ items.map ProjItem.column)
    : ∃ e ∈ items.zip vs, e.1.column = name ∧ (written (items.zip vs)).get name = some e.2 := by
  rw [← map_fst_zip (Nat.le_of_eq sizes)] at column
  obtain ⟨it, listed, rfl⟩ := mem_map.mp column
  obtain ⟨e, member, rfl⟩ := mem_map.mp listed
  exact get_written member

/-- The columns are read alike in the projected and in the extended row. -/
theorem get_extended (sizes : items.length = vs.length) {name : Str} (column : name ∈ items.map ProjItem.column)
    : (setColumns r items vs).get name = (written (items.zip vs)).get name := by
  obtain ⟨e, _, _, found⟩ := get_column sizes column
  rw [setColumns, get_foldl_columns, found, Option.some_or]

/-- The columns of the extended row are the projected row. -/
theorem onlyColumns_eq (sizes : items.length = vs.length)
    : onlyColumns items (setColumns r items vs) = written (items.zip vs) := by
  ext name : 1
  by_cases column : name ∈ items.map ProjItem.column
  · obtain ⟨e, _, _, found⟩ := get_column sizes column
    obtain ⟨it, listed, rfl⟩ := mem_map.mp column
    obtain ⟨e', member, same, read⟩ :=
      get_written (mem_map_of_mem (f := fun it => (it, cell (setColumns r items vs) it.column)) listed)
    obtain ⟨it', _, rfl⟩ := mem_map.mp member
    dsimp only at same read
    rw [onlyColumns, read, same, cell, get_extended sizes column, found, Option.getD_some]
  · rw [get_unlisted column, onlyColumns, get_written_eq_none]
    intro e member same
    obtain ⟨it, listed, rfl⟩ := mem_map.mp member
    exact column (same ▸ mem_map_of_mem listed)

/-- A key that reads the same in the projected row has its value there. -/
theorem read_key {e : Expr} {out : Row} (agree : AgreeOn (exprVars e) out r) (lasting : Lasting ctx s o r e)
    (c : Choices)
    : ((eval ctx e out c).handle (fun _ => return .null)).read s = .ok (keyValue ctx s r e) := by
  rw [eval_of_agree ctx e agree, read_handle (reads_eval ctx e r c), (lasting c).1, keyValue]
  cases (eval ctx e r .ordered).read s <;> rfl

theorem read_var {name : Str} {v : Val} {c : Choices} (evaluated : (eval ctx (.var name) r c).read s = .ok v)
    : r.get name = some v := by
  rw [eval] at evaluated
  cases bound : r.get name with
  | none =>
    rw [bound] at evaluated
    cases evaluated
  | some w =>
    rw [bound] at evaluated
    exact congrArg some (Except.ok.inj evaluated)

/-- The items of a name have the value that the name had before. -/
theorem get_kept {name : Str} (values : Values ctx o items vs)
    (kept : ∀ it ∈ items, it.column = name → it.expr = .var name)
    : (setColumns o.1 items vs).get name = o.1.get name := by
  by_cases column : name ∈ items.map ProjItem.column
  · obtain ⟨e, member, same, found⟩ := get_column values.length_eq column
    obtain ⟨c, value⟩ := (forall₂_iff_zip.mp values).2 member
    rw [kept e.1 (of_mem_zip member).1 same] at value
    rw [get_extended values.length_eq column, found, read_var value]
  · rw [setColumns, get_foldl_columns, get_unlisted column, Option.none_or]

/-- A property that is a column of its own text has its value there. -/
theorem get_property {name key : Str} (values : Values ctx o items vs)
    (column : name ++ lit "." ++ key ∈ items.map ProjItem.column)
    (itself : ∀ it ∈ items, it.column = name ++ lit "." ++ key → it.expr = .propertyAccess (.var name) key)
    (kept : ∀ it ∈ items, it.column = name → it.expr = .var name)
    (lasting : Lasting ctx s o (setColumns o.1 items vs) (.propertyAccess (.var name) key))
    : (written (items.zip vs)).get (name ++ lit "." ++ key)
      = some (keyValue ctx s (setColumns o.1 items vs) (.propertyAccess (.var name) key)) := by
  obtain ⟨e, member, same, found⟩ := get_column values.length_eq column
  obtain ⟨c, value⟩ := (forall₂_iff_zip.mp values).2 member
  have agree : AgreeOn (exprVars (.propertyAccess (.var name) key)) o.1 (setColumns o.1 items vs) := by
    intro v member
    obtain rfl : v = name := by simpa [exprVars] using member
    exact (get_kept values kept).symm
  rw [itself e.1 (of_mem_zip member).1 same, eval_of_agree ctx _ agree, (lasting c).2] at value
  rw [found, keyValue, value]

theorem columnKey_property (name key : Str) : columnKey (.propertyAccess (.var name) key) ≠ [] :=
  append_ne_nil_of_left_ne_nil (append_ne_nil_of_right_ne_nil _ (by decide)) _

/-- A visible key that has no text of a column reads only columns. -/
theorem Visible.columns {e : Expr} (visible : Visible items e) (unnamed : columnKey e = [])
    : ∀ name ∈ exprVars e, name ∈ items.map ProjItem.column := by
  unfold Visible at visible
  split at visible
  · exact absurd unnamed (columnKey_property _ _)
  · exact visible

/-- A visible key is found in the projected row as it is in the extended row. -/
theorem sortValue_visible {e : Expr} (visible : Visible items e) (extended : Extends ctx items o r)
    (lasting : Lasting ctx s o r e) (c : Choices)
    : (sortValue ctx (onlyColumns items r) e c).read s = .ok (keyValue ctx s r e) := by
  obtain ⟨vs, values, rfl⟩ := extended
  have sizes : items.length = vs.length := values.length_eq
  rw [onlyColumns_eq sizes]
  have evaluated (columns : ∀ name ∈ exprVars e, name ∈ items.map ProjItem.column)
      : ((eval ctx e (written (items.zip vs)) c).handle (fun _ => return .null)).read s
        = .ok (keyValue ctx s (setColumns o.1 items vs) e) :=
    read_key (fun name member => (get_extended sizes (columns name member)).symm) lasting c
  by_cases unnamed : columnKey e = []
  · rw [sortValue, if_pos unnamed]
    exact evaluated (visible.columns unnamed)
  · rw [sortValue, if_neg unnamed]
    revert unnamed
    fun_cases columnKey e with
    | case1 name =>
      intro _
      have column : name ∈ items.map ProjItem.column := visible name (mem_singleton_self name)
      obtain ⟨e, _, _, found⟩ := get_column sizes column
      have value : keyValue ctx s (setColumns o.1 items vs) (.var name) = e.2 := by
        rw [keyValue, eval, get_extended sizes column, found]
        rfl
      rw [found, value]
      rfl
    | case2 name key =>
      intro _
      rw [Visible] at visible
      split at visible
      case isTrue column =>
        rw [get_property values column visible.1 visible.2 lasting]
        rfl
      case isFalse unlisted =>
        rw [get_unlisted unlisted]
        exact evaluated (by simpa [exprVars] using visible)
    | case3 => exact absurd rfl

/-- The projected rows are the columns of the extended rows, by induction on the rows. -/
theorem exists_extended {ins : Yielded} {all : List Row} (each : Forall₂ (Projected ctx items) ins all)
    : ∃ exts, Forall₂ (Extends ctx items) ins exts ∧ all = exts.map (onlyColumns items) := by
  induction each with
  | nil => exact ⟨[], .nil, rfl⟩
  | @cons o b _ _ here _ ih =>
    obtain ⟨exts, extended, rfl⟩ := ih
    obtain ⟨vs, values, rfl⟩ := here
    refine ⟨setColumns o.1 items vs :: exts, .cons ⟨vs, values, rfl⟩ extended, ?_⟩
    rw [map_cons, onlyColumns_eq values.length_eq]

theorem distinctFrom_false (key : Row → Str) (seen : List Str) (rows : List Row)
    : distinctFrom false key seen rows = rows := by
  induction rows generalizing seen with
  | nil => rfl
  | cons b rest ih => exact congrArg (b :: ·) (ih _)

/-- Rows with the same keys are compared alike, by induction on the keys. -/
theorem before_congr {value value' : Row → Expr → Val} {keys : List SortKey} {x x' y y' : Row}
    (left : ∀ k ∈ keys, value x k.expr = value' x' k.expr) (right : ∀ k ∈ keys, value y k.expr = value' y' k.expr)
    : before value keys x y = before value' keys x' y' := by
  induction keys with
  | nil => rfl
  | cons k rest ih =>
    rw [before, before, left k mem_cons_self, right k mem_cons_self,
      ih (fun k member => left k (mem_cons_of_mem _ member)) (fun k member => right k (mem_cons_of_mem _ member))]

/-- If all keys are visible, the projected rows are sorted as the extended rows are. -/
theorem sortRows_visible {keys : List SortKey} {ins : Yielded} {exts : List Row}
    (visible : ∀ k ∈ keys, Visible items k.expr)
    (extended : Forall₂ (fun o r => Extends ctx items o r ∧ ∀ k ∈ keys, Lasting ctx s o r k.expr) ins exts)
    (c : Choices)
    : (sortRows ctx keys (exts.map (onlyColumns items)) c).read s
      = .ok ((StableSort.sortBy (before (keyValue ctx s) keys) exts).map (onlyColumns items)) := by
  let seen (r : Row) (e : Expr) : Val := ((sortValue ctx r e .ordered).read s).toOption.getD .null
  have found {r : Row} (member : r ∈ exts) {k : SortKey} (key : k ∈ keys) (c : Choices)
      : (sortValue ctx (onlyColumns items r) k.expr c).read s = .ok (keyValue ctx s r k.expr) := by
    obtain ⟨o, _, extended, lasting⟩ := exists_left_of_mem extended member
    exact sortValue_visible (visible k key) extended (lasting k key) c
  have same {r : Row} (member : r ∈ exts) (k : SortKey) (key : k ∈ keys)
      : seen (onlyColumns items r) k.expr = keyValue ctx s r k.expr := by
    simp only [seen, found member key]
    rfl
  have keyed : KeyValues ctx s {r | r ∈ exts.map (onlyColumns items)} keys seen := by
    intro r member k key c
    obtain ⟨b, among, rfl⟩ := mem_map.mp member
    rw [same among k key]
    exact found among key c
  rw [sortRows_fixed keyed (fun r member => member), StableSort.sortBy_map,
    StableSort.sortBy_congr fun x left y right => before_congr (same left) (same right)]

end

/-- A RETURN of listed items with ORDER BY, without DISTINCT, aggregates, SKIP and LIMIT. -/
structure OnlyOrdered (r : Return) : Prop where
  listed : r.star = false
  distinct : r.distinct = false
  plain : ∀ it ∈ r.items, containsAggregate it.expr = false
  keyed : r.orderBy ≠ []
  skip : r.skip = none
  limit : r.limit = none

/-- The rows of the query are the rows of the clauses before the RETURN, extended with the columns, sorted by the
values of the keys on them and reduced to the columns.
-/
def OrdersAsMeant (ctx : Context) (s s' : Store) (pre : List Clause) (r : Return) (columns : List Str)
    (rows : List (List Val)) : Prop :=
  ∃ pl ins exts a, planClauses (planCatalog s) pre .start = .ok pl
    ∧ Reaches ctx s pl.plan (noArgument, s) ins true (a, s')
    ∧ Forall₂ (Extends ctx (r.items.map itemOf)) ins exts
    ∧ rows = cells columns ((StableSort.sortBy (before (keyValue ctx s') (sortKeys r.orderBy)) exts).map
        (onlyColumns (r.items.map itemOf)))

/-- On all rows that the clauses before the RETURN can yield, the keys have values that last. -/
def LastingKeys (ctx : Context) (s s' : Store) (pre : List Clause) (r : Return) : Prop :=
  ∀ pl ins ended x, planClauses (planCatalog s) pre .start = .ok pl
    → Reaches ctx s pl.plan (noArgument, s) ins ended x
    → ∀ o ∈ ins, ∀ b, Extends ctx (r.items.map itemOf) o b → ∀ k ∈ r.orderBy, Lasting ctx s' o b k.expr

section

variable {ctx : Context} {pre : List Clause} {r : Return} {columns : List Str}

/-- The plan of such a RETURN is a sort over a projection. -/
theorem planReturn_onlyOrdered (ordered : OnlyOrdered r) (pl : Planner)
    : (planReturn pl r).plan = .sort (.project pl.plan (r.items.map itemOf) false) (sortKeys r.orderBy) := by
  have items : expandItems pl r.star r.items = r.items.map itemOf := by
    rw [expandItems, ordered.listed]
    rfl
  have plain : (r.items.map itemOf).filter (fun it => containsAggregate it.expr) = [] := by
    simpa [filter_eq_nil_iff, itemOf] using ordered.plain
  have projected : (projectOrAggregate pl r.star r.items r.distinct).plan
      = .project pl.plan (r.items.map itemOf) false := by
    simp only [projectOrAggregate, Planner.bindAll_keeps, items, plain, ordered.distinct]
    rfl
  have keyed : r.orderBy.isEmpty = false := by simpa using ordered.keyed
  rw [planReturn, projected, applyTail, ordered.skip, ordered.limit, keyed]
  rfl

end

def unwindBoth : Clause :=
  .ofUnwind (.listLiteral [.literal (.int 2), .literal (.int 1)]) (lit "x")

def negatedX : Expr := .binary .sub (.literal (.int 0)) (.var (lit "x"))

theorem lastingKeys_negatedX {s s' : Store} {pre : List Clause} {r : Return}
    (keys : ∀ k ∈ r.orderBy, k.expr = negatedX ∨ k.expr = .var (lit "x"))
    : LastingKeys .bare s s' pre r := by
  intro pl ins ended x _ _ o _ b _ k key
  rcases keys k key with same | same
  all_goals
    rw [same]
    intro c
    simp only [negatedX, eval, true_and]
  · cases b.get (lit "x") with
    | none => rfl
    | some v => exact (read_ofExcept _).trans (read_ofExcept _).symm
  · cases b.get (lit "x") <;> rfl

end Intreccio.Exec
