import Intreccio.Exec.Projection

/-! The columns of a RETURN (`Run` in `internal/exec`, with the columns of the analyzer and the plans of the
planner). The rows of a query come from the rows of its last projection, also through ORDER BY, SKIP, LIMIT
and UNION.
-/

namespace Intreccio.Exec

open Kv Words Graph Ast Plan Program Pull List

/-- The parts are run to their ends, each from where the one before it ended. -/
def Through {α : Type} (ran : α → Argument × Store → Argument × Store → Prop)
    : List α → Argument × Store → Argument × Store → Prop
  | [], x, y => x = y
  | p :: rest, x, z => ∃ y, ran p x y ∧ Through ran rest y z

section

variable {α β : Type} {ran : α → Argument × Store → Argument × Store → Prop} {x y z : Argument × Store}

/-- One more part is run to its end. -/
theorem Through.snoc {parts : List α} {p : α} (through : Through ran parts x y) (last : ran p y z)
    : Through ran (parts ++ [p]) x z := by
  induction parts generalizing x with
  | nil =>
    cases through
    exact ⟨z, last, rfl⟩
  | cons first rest ih =>
    obtain ⟨mid, here, later⟩ := through
    exact ⟨mid, here, ih later⟩

/-- Parts that correspond to each other one by one are run alike. -/
theorem Through.transfer {ran' : β → Argument × Store → Argument × Store → Prop} {R : α → β → Prop}
    {parts : List α} {others : List β} (same : List.Forall₂ R parts others)
    (each : ∀ p p' x y, R p p' → ran p x y → ran' p' x y) (through : Through ran parts x y)
    : Through ran' others x y := by
  induction same generalizing x with
  | nil => exact through
  | cons first _ ih =>
    obtain ⟨mid, here, later⟩ := through
    exact ⟨mid, each _ _ _ _ first here, ih later⟩

end

/-- An iterator is run to its end. -/
def Finishes (ctx : Context) (m : Machine) (x y : Argument × Store) : Prop :=
  ∃ rows m', Reads ctx (m, x.1) x.2 rows true (m', y.1) y.2

/-- Of the parts of a union, those before the first that is left were run to their ends, and that one has been
run from there on.
-/
def Underway (ctx : Context) (parts left : List Machine) (start x : Argument × Store) : Prop :=
  ∀ m rest, left = m :: rest → ∃ ended first mid outs, parts = ended ++ first :: rest
    ∧ Through (Finishes ctx) ended start mid ∧ Runs (turn ctx) (first, mid.1) mid.2 outs (m, x.1) x.2

/-- The row is one of a part, run after the parts before it. -/
def FromPart (ctx : Context) (parts : List Machine) (start : Argument × Store) (r : Row) : Prop :=
  ∃ ended first rest mid outs y s', parts = ended ++ first :: rest ∧ Through (Finishes ctx) ended start mid
    ∧ Runs (turn ctx) (first, mid.1) mid.2 outs y s' ∧ r ∈ outs.map Prod.fst

section

variable {ctx : Context} {parts left : List Machine} {columns seen : List Str} {dedup : Bool} {a : Argument}
  {s s' : Store} {start : Argument × Store}

/-- The next part of a union begins where the parts before it ended. -/
theorem underway_next {ended : List Machine} (split : parts = ended ++ left)
    (through : Through (Finishes ctx) ended start (a, s))
    : Underway ctx parts left start (a, s) := by
  rintro m rest rfl
  exact ⟨ended, m, (a, s), [], split, through, .start⟩

/-- One turn of a union is a turn of the first part that is left. -/
theorem Underway.turn {t : Turn Row} {y : Machine × Argument} (underway : Underway ctx parts left start (a, s))
    (ran : (Exec.turn ctx (.union left columns dedup seen, a)).run s = (.ok (t, y), s'))
    : ∃ left' seen' a', y = (.union left' columns dedup seen', a') ∧ Underway ctx parts left' start (a', s')
      ∧ ∀ r, t = .row r → FromPart ctx parts start r := by
  change (stepUnion ctx left columns dedup seen a).run s = _ at ran
  cases left with
  | nil =>
    cases ran
    exact ⟨[], seen, a, rfl, nofun, nofun⟩
  | cons m rest =>
    obtain ⟨ended, first, begun, outs, split, through, runs⟩ := underway m rest rfl
    rw [stepUnion] at ran
    obtain ⟨⟨t', m', a'⟩, mid, stepped, ran⟩ := run_bind_ok.mp ran
    have runs' (going : t' ≠ .done)
        : Runs (Exec.turn ctx) (first, begun.1) begun.2 (outs ++ yielded t' mid) (m', a') mid :=
      .turn runs stepped going
    have goesOn (going : t' ≠ .done) : Underway ctx parts (m' :: rest) start (a', mid) := by
      rintro _ _ ⟨⟩
      exact ⟨ended, first, begun, _, split, through, runs' going⟩
    cases t' with
    | row b =>
      dsimp only at ran
      split at ran
      · cases ran
        exact ⟨_, _, _, rfl, goesOn nofun, nofun⟩
      · cases ran
        refine ⟨_, _, _, rfl, goesOn nofun, ?_⟩
        rintro r ⟨⟩
        refine ⟨ended, first, rest, begun, _, _, _, split, through, runs' nofun, ?_⟩
        rw [map_append]
        exact mem_append_right _ (mem_singleton.mpr rfl)
    | again =>
      cases ran
      exact ⟨_, _, _, rfl, goesOn nofun, nofun⟩
    | done =>
      cases ran
      have finished : Finishes ctx first begun (a', s') := ⟨outs, m', _, _, runs, stepped⟩
      refine ⟨rest, seen, a', rfl, underway_next ?_ (through.snoc finished), nofun⟩
      rw [split, append_assoc]
      rfl

/-- The rows of a union are those of its parts, run one after the other; by induction on the turns. -/
theorem runs_union {outs : Yielded} {y : Machine × Argument}
    (ran : Runs (Exec.turn ctx) (.union parts columns dedup seen, a) s outs y s')
    : ∀ o ∈ outs, FromPart ctx parts (a, s) o.1 := by
  suffices both : (∃ left' seen' a', y = (.union left' columns dedup seen', a')
      ∧ Underway ctx parts left' (a, s) (a', s')) ∧ ∀ o ∈ outs, FromPart ctx parts (a, s) o.1 from both.2
  induction ran with
  | start => exact ⟨⟨parts, seen, a, rfl, underway_next (nil_append parts).symm rfl⟩, nofun⟩
  | @turn rows y z t mid after _ next _ ih =>
    obtain ⟨⟨left', seen', a', rfl, underway⟩, earlier⟩ := ih
    obtain ⟨left'', seen'', a'', same, underway', row⟩ := underway.turn next
    refine ⟨⟨left'', seen'', a'', same, underway'⟩, fun o member => ?_⟩
    obtain old | new := mem_append.mp member
    · exact earlier o old
    · cases t with
      | row b =>
        obtain rfl := mem_singleton.mp new
        exact row b rfl
      | again => cases new
      | done => cases new

end

/-- Rows that the plan has yielded, when it was built on one store and run from a moment on, up to its end or
not.
-/
def Reaches (ctx : Context) (store : Store) (p : Plan.Op) (start : Argument × Store) (rows : Yielded)
    (ended : Bool) (x : Argument × Store) : Prop :=
  ∃ c m m', (buildWith ctx p none c).read store = .ok m
    ∧ Reads ctx (m, start.1) start.2 rows ended (m', x.1) x.2

/-- All rows that the plan can yield have the property, which may depend on the moment the run begins. -/
def Provides (ctx : Context) (store : Store) (p : Plan.Op) (P : Argument × Store → Row → Prop) : Prop :=
  ∀ start rows ended x, Reaches ctx store p start rows ended x → ∀ o ∈ rows, P start o.1

section

variable {ctx : Context} {store : Store} {p : Plan.Op} {P : Argument × Store → Row → Prop}

/-- The rows before the end of a plan are reached without it. -/
theorem Reaches.before {start x : Argument × Store} {rows : Yielded} {ended : Bool}
    (reached : Reaches ctx store p start rows ended x)
    : ∃ x', Reaches ctx store p start rows false x' := by
  cases ended with
  | false => exact ⟨x, reached⟩
  | true =>
    obtain ⟨c, m, m', built, z, mid, runs, _⟩ := reached
    exact ⟨(z.2, mid), c, m, z.1, built, runs⟩

/-- What holds of all outputs of an operator holds of all rows of a plan with the operator on top. -/
theorem provides_unary {out : Yielded → Bool → Row → Prop} {top : Plan.Op}
    (built : ∀ c m, (buildWith ctx top none c).read store = .ok m
      → ∃ input u, (buildWith ctx p none (c.sub 0)).read store = .ok input ∧ m = .unary input u ∧ u.Yields ctx out)
    : Provides ctx store top (fun start r =>
        ∃ ins ended x, Reaches ctx store p start ins ended x ∧ out ins ended r) := by
  intro start rows ended x reached o member
  obtain ⟨x, c, m, m', done, runs⟩ := reached.before
  obtain ⟨input, u, below, rfl, inv, complete, law, good, sound⟩ := built c m done
  obtain ⟨input', u', a, ins, ended', same, reads, inv⟩ := law.runs (good _) runs
  exact ⟨ins, ended', (a, x.2), ⟨c.sub 0, input, input', below, reads⟩, sound _ _ _ _ _ inv o member⟩

/-- What an operator has yielded at its end is complete, for what the plan below it has yielded by then. -/
theorem Reaches.finishes {inv : Yielded → Bool → Yielded → Store → Unary → Prop}
    {complete : Yielded → Bool → Yielded → Store → Prop} {top : Plan.Op} {start x : Argument × Store}
    {rows : Yielded} (reached : Reaches ctx store top start rows true x) (law : Operates ctx inv complete)
    (built : ∀ c m, (buildWith ctx top none c).read store = .ok m
      → ∃ input u, (buildWith ctx p none (c.sub 0)).read store = .ok input ∧ m = .unary input u
        ∧ ∀ s, inv [] false [] s u)
    : ∃ ins ended a, Reaches ctx store p start ins ended (a, x.2) ∧ complete ins ended rows x.2 := by
  obtain ⟨c, m, m', done, reads⟩ := reached
  obtain ⟨input, u, below, rfl, good⟩ := built c m done
  obtain ⟨input', u', a, ins, ended, _, reads, complete⟩ := law.finishes (good _) reads
  exact ⟨ins, ended, a, ⟨c.sub 0, input, input', below, reads⟩, complete⟩

/-- The invariant of an operator holds for what the plan below it has yielded. -/
theorem Reaches.runs {inv : Yielded → Bool → Yielded → Store → Unary → Prop}
    {complete : Yielded → Bool → Yielded → Store → Prop} {top : Plan.Op} {start x : Argument × Store}
    {rows : Yielded} (reached : Reaches ctx store top start rows false x) (law : Operates ctx inv complete)
    (built : ∀ c m, (buildWith ctx top none c).read store = .ok m
      → ∃ input u, (buildWith ctx p none (c.sub 0)).read store = .ok input ∧ m = .unary input u
        ∧ ∀ s, inv [] false [] s u)
    : ∃ ins ended a u, Reaches ctx store p start ins ended (a, x.2) ∧ inv ins ended rows x.2 u := by
  obtain ⟨c, m, m', done, reads⟩ := reached
  obtain ⟨input, u, below, rfl, good⟩ := built c m done
  obtain ⟨input', u', a, ins, ended, _, reads, inv⟩ := law.runs (good _) reads
  exact ⟨ins, ended, a, u', ⟨c.sub 0, input, input', below, reads⟩, inv⟩

/-- An operator that hands on rows of its input keeps what holds of these. -/
theorem provides_pass {top : Plan.Op} (provides : Provides ctx store p P)
    (built : ∀ c m, (buildWith ctx top none c).read store = .ok m
      → ∃ input u, (buildWith ctx p none (c.sub 0)).read store = .ok input ∧ m = .unary input u
        ∧ u.Yields ctx Passed)
    : Provides ctx store top P := by
  intro start rows ended x reached o member
  obtain ⟨ins, ended', x', below, passed⟩ := provides_unary built start rows ended x reached o member
  obtain ⟨o', member', same⟩ := mem_map.mp passed
  exact same ▸ provides start ins ended' x' below o' member'

/-- SKIP and LIMIT hand on rows of their input. -/
theorem provides_count {op : Plan.Op → Expr → Plan.Op} {count : Option Expr} (counts : op = .skip ∨ op = .limit)
    (provides : Provides ctx store p P)
    : Provides ctx store (count.elim p (op p)) P := by
  cases count with
  | none => exact provides
  | some count =>
    refine provides_pass provides fun c m done => ?_
    rcases counts with rfl | rfl
    all_goals
      obtain ⟨input, below, done⟩ := (read_bind_ok (reads_buildWith _ _ _ _)).mp done
      obtain ⟨n, _, same⟩ := (read_bind_ok (reads_evalCount _ _ _)).mp done
      cases same
    · exact ⟨input, _, below, rfl, yields_skip n⟩
    · exact ⟨input, _, below, rfl, yields_limit n⟩

/-- The rows after ORDER BY, SKIP and LIMIT are rows from before them. -/
theorem provides_applyTail {orderBy : List SortItem} {skip limit : Option Expr}
    (provides : Provides ctx store p P)
    : Provides ctx store (applyTail p orderBy skip limit) P := by
  have sorted : Provides ctx store
      (if orderBy.isEmpty then p else .sort p (orderBy.map (fun s => ⟨s.expr, s.desc⟩))) P := by
    split
    · exact provides
    · refine provides_pass provides fun c m done => ?_
      obtain ⟨input, below, same⟩ := (read_bind_ok (reads_buildWith _ _ _ _)).mp done
      cases same
      exact ⟨input, _, below, rfl, yields_sort _ _⟩
  exact provides_count (.inr rfl) (provides_count (.inl rfl) sorted)

/-- A projection yields rows that are written of the values of its items, on a row or for a group of its input. -/
theorem provides_projectOrAggregate (pl : Planner) (star : Bool) (items : List ReturnItem) (distinct : Bool)
    : Provides ctx store (projectOrAggregate pl star items distinct).plan (fun start r =>
        ∃ ins ended x vs, Reaches ctx store pl.plan start ins ended x
          ∧ ItemValues ctx ins ended (expandItems pl star items) vs
          ∧ r = written (writtenOrder (expandItems pl star items) vs)) := by
  intro start rows ended x reached o member
  rw [projectOrAggregate, (Planner.bindAll_keeps _ _).1] at reached
  dsimp only at reached
  split at reached
  next none' =>
    have plain : (expandItems pl star items).any (fun it => containsAggregate it.expr) = false := by
      rw [any_eq_false]
      exact fun it listed aggregate => by
        have empty := List.isEmpty_iff.mp none'
        exact not_mem_nil (empty ▸ mem_filter.mpr ⟨listed, aggregate⟩)
    obtain ⟨ins, ended', x', below, projected⟩ := provides_unary (fun c m done => by
      obtain ⟨input, below, same⟩ := (read_bind_ok (reads_buildWith _ _ _ _)).mp done
      cases same
      exact ⟨input, _, below, rfl, yields_project _ _ _⟩) start rows ended x reached o member
    obtain ⟨vs, values, same⟩ := written_of_projected plain projected
    exact ⟨ins, ended', x', vs, below, values, same⟩
  next some' =>
    have grouping : (expandItems pl star items).any (fun it => containsAggregate it.expr) = true := by
      obtain ⟨it, listed⟩ := exists_mem_of_ne_nil _ (fun empty => some' (List.isEmpty_iff.mpr empty))
      obtain ⟨listed, aggregate⟩ := mem_filter.mp listed
      exact any_eq_true.mpr ⟨it, listed, aggregate⟩
    obtain ⟨ins, ended', x', below, aggregated⟩ := provides_unary (fun c m done => by
      obtain ⟨input, below, same⟩ := (read_bind_ok (reads_buildWith _ _ _ _)).mp done
      cases same
      exact ⟨input, _, below, rfl, yields_aggregate _ _⟩) start rows ended x reached o member
    obtain ⟨vs, values, same⟩ := written_of_aggregated grouping aggregated
    exact ⟨ins, ended', x', vs, below, values, same⟩

/-- The parts of a union are built one by one. -/
theorem forall₂_buildAll {parts : List Plan.Op} {arg : Option Row} {c : Choices} {ms : List Machine}
    (built : (buildAll ctx parts arg c).read store = .ok ms)
    : List.Forall₂ (fun p m => ∃ c, (buildWith ctx p arg c).read store = .ok m) parts ms := by
  induction parts generalizing c ms with
  | nil =>
    cases built
    exact .nil
  | cons p rest ih =>
    obtain ⟨first, here, built⟩ := (read_bind_ok (reads_buildWith _ _ _ _)).mp built
    obtain ⟨more, later, same⟩ := (read_bind_ok (reads_buildAll _ _ _ _)).mp built
    cases same
    exact .cons ⟨c.now, here⟩ (ih later)

/-- A plan is run to its end. -/
def PlanCompletes (ctx : Context) (store : Store) (p : Plan.Op) (x y : Argument × Store) : Prop :=
  ∃ rows, Reaches ctx store p x rows true y

/-- The rows of a UNION are rows of its arms, each run after those before it. -/
theorem provides_union {parts : List Plan.Op} {columns : List Str} {all : Bool}
    {P : Plan.Op → Argument × Store → Row → Prop} (provides : ∀ p ∈ parts, Provides ctx store p (P p))
    : Provides ctx store (.union parts columns all) (fun start r =>
        ∃ ended p rest mid, parts = ended ++ p :: rest ∧ Through (PlanCompletes ctx store) ended start mid
          ∧ P p mid r) := by
  intro start rows ended x reached o member
  obtain ⟨x, c, m, m', done, runs⟩ := reached.before
  obtain ⟨ms, built, same⟩ := (read_bind_ok (reads_buildAll _ _ _ _)).mp done
  cases same
  obtain ⟨before, m, after, mid, outs, y, s', rfl, through, runs, found⟩ := runs_union runs o member
  obtain ⟨ended, p, rest, split, firsts, c', here⟩ := split_of_forall₂ (forall₂_buildAll built)
  obtain ⟨o', among, same⟩ := mem_map.mp found
  have part : p ∈ parts := split ▸ mem_append_right _ mem_cons_self
  have completed : Through (PlanCompletes ctx store) ended start mid := by
    refine through.transfer firsts.flip ?_
    rintro m p x y ⟨c, built⟩ ⟨rows, m', reads⟩
    exact ⟨rows, c, m, m', built, reads⟩
  refine ⟨ended, p, rest, mid, split, completed, ?_⟩
  exact same ▸ provides p part mid outs false (y.2, s') ⟨c', m, y.1, here, runs⟩ o' among

end

/-- All arms of an accepted query have its columns. -/
theorem analyzeArm_of_accepted {q : Query} {columns : List Str} {arm : List Clause} (accepted : Sema.analyze q = .ok columns)
    (member : arm ∈ arms q)
    : Sema.analyzeArm arm = .ok columns := by
  have each (unions : List QueryUnion) {u : Unit} (done : Sema.analyzeUnions columns unions = .ok u)
      : ∀ u ∈ unions, Sema.analyzeArm u.clauses = .ok columns := by
    induction unions with
    | nil => exact nofun
    | cons u rest ih =>
      obtain ⟨out, here, done⟩ := bind_eq_ok.mp done
      dsimp only at done
      split at done
      · cases done
      next same =>
        obtain rfl : columns = out := by simpa using same
        exact forall_mem_cons.mpr ⟨here, ih done⟩
  obtain ⟨cols, here, accepted⟩ := bind_eq_ok.mp accepted
  dsimp only at accepted
  split at accepted
  · cases accepted
  · obtain ⟨_, done, same⟩ := bind_eq_ok.mp accepted
    obtain rfl := Except.ok.inj same
    obtain rfl | inUnion := mem_cons.mp member
    · exact here
    · obtain ⟨u, listed, rfl⟩ := mem_map.mp inUnion
      exact each q.unions done u listed

def itemOf (it : ReturnItem) : ProjItem := ⟨it.expr, Sema.itemColumn it⟩

/-- The values of the items of a RETURN for a row or a group of the clauses before it, which were planned on
one store and run from a moment on.
-/
def Origin (ctx : Context) (store : Store) (pre : List Clause) (items : List ProjItem) (start : Argument × Store)
    (vs : List Val) : Prop :=
  ∃ pl rows ended x, planClauses (planCatalog store) pre .start = .ok pl
    ∧ Reaches ctx store pl.plan start rows ended x ∧ ItemValues ctx rows ended items vs

/-- An arm of a UNION is planned on a store and run to its end. -/
def ArmCompletes (ctx : Context) (store : Store) (arm : List Clause) (x y : Argument × Store) : Prop :=
  ∃ p cols, planArm (planCatalog store) arm = .ok (p, cols) ∧ PlanCompletes ctx store p x y

section

variable {ctx : Context} {q : Query} {cat : Plan.Catalog} {columns : List Str} {pre : List Clause} {r : Return}

/-- A query is planned as its only arm, or as the union of the plans of its arms. -/
theorem plan_arms {p : Plan.Op} (planned : plan q cat = .ok p)
    : (arms q = [q.clauses] ∧ ∃ cols, planArm cat q.clauses = .ok (p, cols))
      ∨ ∃ parts columns all, p = .union parts columns all
        ∧ List.Forall₂ (fun arm part => ∃ cols, planArm cat arm = .ok (part, cols)) (arms q) parts := by
  have each (unions : List QueryUnion) {parts : List Plan.Op} (done : planArms cat unions = .ok parts)
      : List.Forall₂ (fun arm part => ∃ cols, planArm cat arm = .ok (part, cols))
        (unions.map QueryUnion.clauses) parts := by
    induction unions generalizing parts with
    | nil =>
      cases done
      exact .nil
    | cons u rest ih =>
      obtain ⟨⟨first, cols⟩, here, done⟩ := bind_eq_ok.mp done
      obtain ⟨more, later, same⟩ := bind_eq_ok.mp done
      cases same
      exact .cons ⟨cols, here⟩ (ih later)
  obtain ⟨⟨first, cols⟩, here, planned⟩ := bind_eq_ok.mp planned
  dsimp only at planned
  split at planned
  next none' =>
    cases planned
    refine .inl ⟨?_, cols, here⟩
    rw [arms, List.isEmpty_iff.mp none']
    rfl
  next some' =>
    obtain ⟨parts, done, same⟩ := bind_eq_ok.mp planned
    cases same
    exact .inr ⟨_, _, _, rfl, .cons ⟨cols, here⟩ (each q.unions done)⟩

/-- An arm that ends in RETURN has the plan of the RETURN over that of the clauses before it. -/
theorem planArm_return {p : Plan.Op} {cols : List Str}
    (planned : planArm cat (pre ++ [.ofReturn r]) = .ok (p, cols))
    : ∃ pl, planClauses cat pre .start = .ok pl ∧ p = (planReturn pl r).plan := by
  obtain ⟨after, clauses, planned⟩ := bind_eq_ok.mp planned
  rw [planClauses_snoc] at clauses
  obtain ⟨pl, before, last⟩ := bind_eq_ok.mp clauses
  cases last
  dsimp only at planned
  rw [isNil_planReturn] at planned
  cases planned
  exact ⟨pl, before, rfl⟩

/-- The columns of a query are those of the RETURN of each arm. -/
theorem columns_return (accepted : Sema.analyzeArm (pre ++ [.ofReturn r]) = .ok columns) (plain : r.star = false)
    : columns = (r.items.map itemOf).map ProjItem.column := by
  have last {sc : Sema.Scope} {cols out : List Str} (pre : List Clause)
      (analyzed : Sema.analyzeClauses (pre ++ [.ofReturn r]) sc cols = .ok out)
      : ∃ sc, Sema.analyzeReturn sc r = .ok out := by
    induction pre generalizing sc cols with
    | nil =>
      obtain ⟨⟨sc', cols'⟩, here, same⟩ := bind_eq_ok.mp analyzed
      cases same
      obtain ⟨out', returned, same⟩ := bind_eq_ok.mp here
      cases same
      exact ⟨sc, returned⟩
    | cons first more ih =>
      rw [cons_append, Sema.analyzeClauses] at analyzed
      split at analyzed
      · cases analyzed
      · obtain ⟨⟨sc', cols'⟩, here, later⟩ := bind_eq_ok.mp analyzed
        exact ih later
  have some' : (pre ++ [Clause.ofReturn r]).isEmpty = false := by simp
  simp only [Sema.analyzeArm, some', Bool.false_eq_true, if_false] at accepted
  split at accepted
  · cases accepted
  obtain ⟨cols, analyzed, ended⟩ := bind_eq_ok.mp accepted
  split at ended
  · cases ended
  cases ended
  obtain ⟨sc, returned⟩ := last pre analyzed
  obtain ⟨_, _, returned⟩ := bind_eq_ok.mp returned
  dsimp only at returned
  split at returned
  · cases returned
  obtain ⟨_, _, same⟩ := bind_eq_ok.mp returned
  cases same
  rw [Sema.columns, plain, map_map]
  rfl

/-- The row has the values of the items of the RETURN for a row or a group of the clauses before it, as they are
carried by name.
-/
def FromArm (ctx : Context) (arm : List Clause) (columns : List Str) (store : Store) (start : Argument × Store)
    (row : Row) : Prop :=
  ∃ pre r vs, arm = pre ++ [.ofReturn r] ∧ Origin ctx store pre (r.items.map itemOf) start vs
    ∧ columns.map (cell row) = carried (r.items.map itemOf) vs

/-- The rows of an arm carry the values of the items of its RETURN. -/
theorem provides_arm {store : Store} {p : Plan.Op} {cols : List Str} (accepted : Sema.analyze q = .ok columns)
    (isArm : pre ++ [.ofReturn r] ∈ arms q) (plain : r.star = false)
    (planned : planArm (planCatalog store) (pre ++ [.ofReturn r]) = .ok (p, cols))
    : Provides ctx store p (FromArm ctx (pre ++ [.ofReturn r]) columns store) := by
  obtain ⟨pl, before, rfl⟩ := planArm_return planned
  refine provides_applyTail fun start rows ended x reached o member => ?_
  obtain ⟨ins, ended', x', vs, below, values, written⟩ :=
    provides_projectOrAggregate pl r.star r.items r.distinct start rows ended x reached o member
  rw [plain] at values written
  rw [columns_return (analyzeArm_of_accepted accepted isArm) plain, written]
  exact ⟨pre, r, vs, rfl, ⟨pl, ins, ended', x', before, below, values⟩, rfl⟩

/-- The values have an origin only if there is one for each item. -/
theorem Origin.length_eq {store : Store} {items : List ProjItem} {start : Argument × Store} {vs : List Val}
    (origin : Origin ctx store pre items start vs)
    : items.length = vs.length := by
  obtain ⟨_, _, _, _, _, _, values⟩ := origin
  exact values.length_eq

/-- A query that succeeds has run its plan to the end. -/
theorem reaches_of_query {turns : Nat} {c : Choices} {s s' : Store} {rows : List (List Val)}
    (accepted : Sema.analyze q = .ok columns) (ran : query ctx q turns c s = (.ok rows, s'))
    : ∃ p outs a, plan q (planCatalog s) = .ok p ∧ Reaches ctx s p (noArgument, s) outs true (a, s')
      ∧ rows = cells columns (outs.map Prod.fst) := by
  obtain ⟨p, planned, ran⟩ := query_ok accepted ran
  obtain ⟨m, mid, built, drained⟩ := run_bind_ok.mp ran
  obtain ⟨built, rfl⟩ := read_of_run (reads_buildWith _ _ _ _) built
  obtain ⟨outs, y, last, z, runs, ended, rfl⟩ := runs_of_drain drained
  exact ⟨p, outs, z.2, planned, ⟨c, m, z.1, built, y, last, runs, ended⟩, rfl⟩

/-- A result row comes from a row or a group of an arm: it carries the values of the items of the RETURN there,
and has these values exactly when items with the same column have the same value. An arm is run on the store
that the arms before it have left.
-/
theorem columns_carried_iff {turns : Nat} {c : Choices} {s s' : Store} {rows : List (List Val)} {row : List Val}
    (accepted : Sema.analyze q = .ok columns)
    (ending : ∀ arm ∈ arms q, ∃ pre r, arm = pre ++ [.ofReturn r] ∧ r.star = false)
    (ran : query ctx q turns c s = (.ok rows, s')) (member : row ∈ rows)
    : ∃ before pre r after start vs, arms q = before ++ (pre ++ [.ofReturn r]) :: after
      ∧ Through (ArmCompletes ctx s) before (noArgument, s) start
      ∧ Origin ctx s pre (r.items.map itemOf) start vs ∧ row = carried (r.items.map itemOf) vs
      ∧ (row = vs ↔ Agree (r.items.map itemOf) vs) := by
  obtain ⟨p, outs, a, planned, reached, rfl⟩ := reaches_of_query accepted ran
  obtain ⟨b, listed, rfl⟩ : ∃ b ∈ outs.map Prod.fst, columns.map (cell b) = row := by
    unfold cells at member
    split at member
    · cases member
    · exact List.mem_map.mp member
  obtain ⟨o, among, rfl⟩ := List.mem_map.mp listed
  have arm {p : Plan.Op} {clauses : List Clause} {cols : List Str} (isArm : clauses ∈ arms q)
      (planned : planArm (planCatalog s) clauses = .ok (p, cols))
      : Provides ctx s p (FromArm ctx clauses columns s) := by
    obtain ⟨pre, r, rfl, plain⟩ := ending clauses isArm
    exact provides_arm accepted isArm plain planned
  suffices source : ∃ before clauses after start, arms q = before ++ clauses :: after
      ∧ Through (ArmCompletes ctx s) before (noArgument, s) start
      ∧ FromArm ctx clauses columns s start o.1 by
    obtain ⟨before, _, after, start, split, through, pre, r, vs, rfl, origin, same⟩ := source
    refine ⟨before, pre, r, after, start, vs, split, through, origin, same, ?_⟩
    rw [same]
    exact carried_eq_iff origin.length_eq
  obtain ⟨single, cols, planned⟩ | ⟨parts, cols, dedup, rfl, ofArms⟩ := plan_arms planned
  · have fromArm := arm List.mem_cons_self planned (noArgument, s) outs true _ reached o among
    exact ⟨[], q.clauses, [], (noArgument, s), single, rfl, fromArm⟩
  · let P (p : Plan.Op) (start : Argument × Store) (r : Row) : Prop :=
      ∀ clauses ∈ arms q, ∀ cols, planArm (planCatalog s) clauses = .ok (p, cols)
        → FromArm ctx clauses columns s start r
    have each (p : Plan.Op) (_ : p ∈ parts) : Provides ctx s p (P p) :=
      fun start rows ended x reached o among clauses isArm cols planned =>
        arm isArm planned start rows ended x reached o among
    obtain ⟨ended, p, rest, start, rfl, through, fromArm⟩ :=
      provides_union each (noArgument, s) outs true _ reached o among
    obtain ⟨before, clauses, after, split, firsts, cols, planned⟩ := split_of_forall₂ ofArms
    refine ⟨before, clauses, after, start, split, through.transfer firsts.flip ?_, ?_⟩
    · rintro p arm x y ⟨cols, planned⟩ completes
      exact ⟨p, cols, planned, completes⟩
    · exact fromArm clauses (split ▸ List.mem_append_right _ List.mem_cons_self) cols planned

end

/-- `RETURN (1 + 2) * 3, 1 + 2 * 3`, and with names for both columns where they are given. -/
def returnSums (first second : Str) : Return :=
  let sum (x y : Expr) : Expr := .binary .add x y
  let product (x y : Expr) : Expr := .binary .mul x y
  let one : Expr := .literal (.int 1)
  let two : Expr := .literal (.int 2)
  let three : Expr := .literal (.int 3)
  ⟨false, false, [⟨product (sum one two) three, first⟩, ⟨sum one (product two three), second⟩], [], none, none⟩

/-- With names of their own the two sums are carried. -/
theorem columns_carried_named
    : let q : Query := ⟨[.ofReturn (returnSums (lit "a") (lit "b"))], []⟩
      ∃ before pre r after start vs, arms q = before ++ (pre ++ [.ofReturn r]) :: after
      ∧ Through (ArmCompletes .bare .empty) before (noArgument, .empty) start
      ∧ Origin .bare .empty pre (r.items.map itemOf) start vs
      ∧ [Val.int 9, .int 7] = carried (r.items.map itemOf) vs
      ∧ ([Val.int 9, .int 7] = vs ↔ Agree (r.items.map itemOf) vs) := by
  intro q
  have accepted : Sema.analyze q = .ok [lit "a", lit "b"] := rfl
  have ran : query .bare q 10 .ordered .empty = (.ok [[.int 9, .int 7]], .empty) := rfl
  refine columns_carried_iff accepted (fun arm member => ?_) ran (List.mem_singleton.mpr rfl)
  exact ⟨[], _, List.mem_singleton.mp member, rfl⟩

/-- Result rows need not have the values of their items: two expressions are printed alike, and both columns have
the value of the second.
-/
theorem not_columns_carried_printed
    : ¬ ∀ (ctx : Context) (q : Query) (columns : List Str) (turns : Nat) (c : Choices) (s s' : Store)
        (rows : List (List Val)), Sema.analyze q = .ok columns
      → (∀ arm ∈ arms q, ∃ pre r, arm = pre ++ [.ofReturn r] ∧ r.star = false)
      → query ctx q turns c s = (.ok rows, s')
      → ∀ row ∈ rows, ∃ pre r start, pre ++ [.ofReturn r] ∈ arms q
        ∧ Origin ctx s pre (r.items.map itemOf) start row := by
  intro all
  have ran : query .bare ⟨[.ofReturn (returnSums [] [])], []⟩ 10 .ordered .empty
      = (.ok [[.int 7, .int 7]], .empty) := rfl
  obtain ⟨pre, r, start, isArm, _, rows, ended, _, _, _, values⟩ :=
    all .bare ⟨[.ofReturn (returnSums [] [])], []⟩ _ 10 .ordered .empty .empty _ rfl
      (fun arm member => ⟨[], _, List.mem_singleton.mp member, rfl⟩) ran _ (List.mem_singleton.mpr rfl)
  obtain ⟨_, last⟩ := append_eq_singleton_iff.mp (List.mem_singleton.mp isArm) |>.resolve_right (by simp)
  cases last
  obtain ⟨o, _, values⟩ := values
  obtain _ | ⟨⟨c, first⟩, _⟩ := values
  cases first

end Intreccio.Exec
