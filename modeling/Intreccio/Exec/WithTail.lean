import Intreccio.Foundation.SortFilter
import Intreccio.Exec.Bounds
import Intreccio.Exec.Sorting

/-! The parts of a WITH (`planWith` of `query/plan/plan.go`).
They are written ORDER BY, SKIP, LIMIT, WHERE, but the planner filters the rows before it sorts and bounds them.
Without bounds the two orders agree, if the rows that are dropped do not decide about the order of the others.
-/

namespace Intreccio.Exec

open Kv Words Graph Ast Plan Program Pull List

/-- What a WHERE says of a row at the moment it was yielded; without a WHERE all rows pass. -/
def Decided (ctx : Context) (cond : Option Expr) (o : Row × Store) (d : Bool) : Prop :=
  match cond with
  | none => d = true
  | some pred => ∃ v, Value ctx o pred v ∧ truthy v = d

/-- The elements that pass. -/
def passing {α : Type} (l : List (α × Bool)) : List α := (l.filter Prod.snd).map Prod.fst

/-- A filter has handed on the rows for which its predicate was true. -/
def Filters (ctx : Context) (pred : Expr) (ins : Yielded) (ended : Bool) (outs : Yielded) (_ : Store) (u : Unary)
    : Prop :=
  ended = false ∧ ∃ ch ds, u = .filter pred ch ∧ Forall₂ (Decided ctx (some pred)) ins ds
    ∧ outs = passing (ins.zip ds)

/-- Rows in the order of their keys, each with what the WHERE says of it. -/
def arranged (orderBy : List SortItem) (value : Row → Expr → Val) (l : List (Row × Bool)) : List (Row × Bool) :=
  if orderBy.isEmpty then l else StableSort.sortBy (fun x y => before value (sortKeys orderBy) x.1 y.1) l

/-- The rows are those that the parts of the WITH give in the order in which they are written. -/
def InWrittenOrder (ctx : Context) (w : With) (value : Row → Expr → Val) (skip limit : Option Nat) (ins : Yielded)
    (rows : List Row) : Prop :=
  ∃ ds, Forall₂ (Decided ctx w.cond) ins ds
    ∧ rows = passing (segment skip limit (arranged w.orderBy value ((ins.map Prod.fst).zip ds)))

/-- The rows that a plan can yield. -/
def rowsOf (ctx : Context) (store : Store) (p : Plan.Op) (start : Argument × Store) : Set Row :=
  {r | ∃ ins ended x, Reaches ctx store p start ins ended x ∧ r ∈ ins.map Prod.fst}

section

variable {ctx : Context} {store : Store} {p : Plan.Op} {start x : Argument × Store} {outs : Yielded} {ended : Bool}

theorem passing_append {α : Type} (l l' : List (α × Bool)) : passing (l ++ l') = passing l ++ passing l' := by
  rw [passing, filter_append, map_append]
  rfl

theorem passing_of_all {α : Type} {l : List (α × Bool)} (all : ∀ e ∈ l, e.2 = true) : passing l = l.map Prod.fst := by
  rw [passing, filter_eq_self.mpr all]

theorem map_passing {α β : Type} (f : α → β) (l : List α) (ds : List Bool)
    : (passing (l.zip ds)).map f = passing ((l.map f).zip ds) := by
  rw [passing, passing, zip_map_left, filter_map, map_map, map_map]
  rfl

theorem length_passing_le {α : Type} (l : List α) (ds : List Bool) : (passing (l.zip ds)).length ≤ l.length := by
  rw [passing, length_map]
  refine (length_filter_le _ _).trans ?_
  rw [length_zip]
  exact Nat.min_le_left _ _

theorem filters_law (pred : Expr)
    : Operates ctx (Filters ctx pred) (fun ins ended outs _ => ended = true
        ∧ ∃ ds, Forall₂ (Decided ctx (some pred)) ins ds ∧ outs = passing (ins.zip ds)) where
  reading := by
    rintro ins ended outs s u ⟨_, ch, ds, rfl, _⟩
    trivial
  act := by
    rintro ins ended outs s u p t u' ⟨_, ch, ds, rfl, _⟩ acts
    cases acts
  idle := fun _ _ _ _ _ good _ => ⟨good.1, fun _ => good.1 ▸ good⟩
  feed := by
    rintro ins outs u b s t u' ⟨_, ch, ds, rfl, decided, rfl⟩ idle ran
    obtain ⟨v, evaluated, same⟩ := (read_bind_ok (reads_eval _ _ _ _)).mp ran
    cases same
    have here : Decided ctx (some pred) (b, s) (truthy v) := ⟨v, ⟨_, evaluated⟩, rfl⟩
    have last : passing [((b, s), truthy v)] = yielded (if truthy v then .row b else .again) s := by
      cases truthy v <;> rfl
    refine ⟨by split <;> nofun, rfl, ch.later, ds ++ [truthy v], rfl, rel_append decided (.cons here .nil), ?_⟩
    rw [zip_append decided.length_eq, passing_append]
    exact congrArg (passing (ins.zip ds) ++ ·) last.symm
  close := by
    rintro ins outs u s t u' ⟨_, ch, ds, rfl, decided, rfl⟩ idle ran
    cases ran
    exact ⟨fun going => absurd rfl going, fun _ => ⟨rfl, ds, decided, rfl⟩⟩

/-- The rows below a WHERE, with what it says of them. -/
theorem reaches_where {cond : Option Expr} (reached : Reaches ctx store (cond.elim p (.filter p)) start outs ended x)
    : ∃ ins ended' a ds, Reaches ctx store p start ins ended' (a, x.2) ∧ Forall₂ (Decided ctx cond) ins ds
      ∧ outs = passing (ins.zip ds) ∧ (ended = true → ended' = true) := by
  cases cond with
  | none =>
    have pairs : outs.zip (outs.map fun _ => true) = outs.map fun o => (o, true) := by
      simpa using zip_map' (f := id) (g := fun _ => true) (l := outs)
    refine ⟨outs, ended, x.1, outs.map fun _ => true, reached, ?_, ?_, id⟩
    · exact forall₂_map_right_iff.mpr (forall₂_same.mpr fun _ _ => rfl)
    · rw [pairs, passing_of_all (by simp), map_map]
      exact (map_id outs).symm
  | some pred =>
    have built (c : Choices) (m : Machine) (done : (buildWith ctx (.filter p pred) none c).read store = .ok m)
        : ∃ input u, (buildWith ctx p none (c.sub 0)).read store = .ok input ∧ m = .unary input u
          ∧ ∀ s, Filters ctx pred [] false [] s u := by
      obtain ⟨input, below, same⟩ := (read_bind_ok (reads_buildWith _ _ _ _)).mp done
      cases same
      exact ⟨input, _, below, rfl, fun _ => ⟨rfl, _, [], rfl, .nil, rfl⟩⟩
    cases ended with
    | false =>
      obtain ⟨ins, ended', a, u, below, _, _, ds, _, decided, same⟩ := reached.runs (filters_law pred) built
      exact ⟨ins, ended', a, ds, below, decided, same, nofun⟩
    | true =>
      obtain ⟨ins, ended', a, below, all, ds, decided, same⟩ := reached.finishes (filters_law pred) built
      exact ⟨ins, ended', a, ds, below, decided, same, fun _ => all⟩

/-- The rows of a plan below its bounds. -/
theorem Reaches.bounded {skip limit : Option Expr} {j k : Option Nat}
    (reached : Reaches ctx store (bounded p skip limit) start outs true x) (skips : CountIs ctx store skip j)
    (limits : CountIs ctx store limit k)
    : ∃ ins ended a, Reaches ctx store p start ins ended (a, x.2) ∧ outs = segment j k ins
      ∧ (ended = true ∨ k = some (ins.drop (j.getD 0)).length) := by
  obtain ⟨c, b, b', built, reads⟩ := reached
  obtain ⟨m, below, rfl⟩ := (build_bounded skips limits b).mp built
  obtain ⟨ins, ended, y, reads', same, stopped⟩ := of_reads_bounded reads
  exact ⟨ins, ended, y.2, ⟨_, m, y.1, below, reads'⟩, same, stopped⟩

def sortedRows (orderBy : List SortItem) (value : Row → Expr → Val) (rows : List Row) : List Row :=
  if orderBy.isEmpty then rows else StableSort.sortBy (before value (sortKeys orderBy)) rows

/-- The rows of a plan below an ORDER BY: it has yielded nothing before its end, or the rows sorted, up to some. -/
theorem reaches_sorted {S : Set Row} {orderBy : List SortItem} {value : Row → Expr → Val}
    (keyed : KeyValues ctx x.2 S (sortKeys orderBy) value) (within : rowsOf ctx store p start ⊆ S)
    (reached : Reaches ctx store (if orderBy.isEmpty then p else .sort p (sortKeys orderBy)) start outs ended x)
    : ∃ ins ended' a, Reaches ctx store p start ins ended' (a, x.2) ∧ (outs = [] ∧ ended = false
      ∨ ∃ rest, sortedRows orderBy value (ins.map Prod.fst) = outs.map Prod.fst ++ rest
        ∧ (ended = true → rest = []) ∧ (ended' = true ∨ ended = false ∧ outs = ins)) := by
  unfold sortedRows
  split at reached
  next unkeyed =>
    refine ⟨outs, ended, x.1, reached, .inr ⟨[], ?_, fun _ => rfl, by cases ended <;> simp⟩⟩
    rw [if_pos unkeyed, append_nil]
  next some' =>
    have built (c : Choices) (m : Machine)
        (done : (buildWith ctx (.sort p (sortKeys orderBy)) none c).read store = .ok m)
        : ∃ input u, (buildWith ctx p none (c.sub 0)).read store = .ok input ∧ m = .unary input u
          ∧ ∀ s, Sorts ctx (sortKeys orderBy) [] false [] s u := by
      obtain ⟨input, below, same⟩ := (read_bind_ok (reads_buildWith _ _ _ _)).mp done
      cases same
      exact ⟨input, _, below, rfl, fun _ => .inl ⟨_, rfl, rfl, rfl⟩⟩
    have sorts {ins : Yielded} {ended : Bool} {a : Argument} {c : Choices} {out : List Row}
        (below : Reaches ctx store p start ins ended (a, x.2))
        (sorted : (sortRows ctx (sortKeys orderBy) (ins.map Prod.fst) c).read x.2 = .ok out)
        : StableSort.sortBy (before value (sortKeys orderBy)) (ins.map Prod.fst) = out := by
      rw [sortRows_fixed keyed fun r member => within ⟨ins, ended, _, below, member⟩] at sorted
      exact Except.ok.inj sorted
    simp only [if_neg some']
    cases ended with
    | false =>
      obtain ⟨ins, ended', a, u, below, ⟨_, _, _, same⟩ | ⟨rest, _, c, _, all, sorted⟩⟩ :=
        reached.runs (sorts_law (sortKeys orderBy)) built
      · exact ⟨ins, ended', a, below, .inl ⟨same, rfl⟩⟩
      · exact ⟨ins, ended', a, below, .inr ⟨rest, sorts below sorted, nofun, .inl all⟩⟩
    | true =>
      obtain ⟨ins, ended', a, below, all, c, sorted⟩ := reached.finishes (sorts_law (sortKeys orderBy)) built
      refine ⟨ins, ended', a, below, .inr ⟨[], ?_, fun _ => rfl, .inl all⟩⟩
      rw [sorts below sorted, append_nil]

theorem map_arranged (orderBy : List SortItem) (value : Row → Expr → Val) (l : List (Row × Bool))
    : (arranged orderBy value l).map Prod.fst = sortedRows orderBy value (l.map Prod.fst) := by
  unfold arranged sortedRows
  split
  · rfl
  · exact (StableSort.sortBy_map Prod.fst l).symm

theorem mem_arranged {orderBy : List SortItem} {value : Row → Expr → Val} {l : List (Row × Bool)} {e : Row × Bool}
    (member : e ∈ arranged orderBy value l)
    : e ∈ l := by
  unfold arranged at member
  split at member
  · exact member
  · exact (StableSort.sortBy_arranges _ l).perm.mem_iff.mp member

/-- No row overtakes another that its keys do not put after it, whatever rows are between them. -/
abbrev SettledKeys (S : Set Row) (orderBy : List SortItem) (value : Row → Expr → Val) : Prop :=
  StableSort.Settled (beforeIn S value (sortKeys orderBy)) (fun _ => true)

/-- Rows with settled keys are arranged alike before and after others are dropped. -/
theorem passing_arranged {S : Set Row} {orderBy : List SortItem} {value : Row → Expr → Val}
    (settled : SettledKeys S orderBy value) {rows : List Row} (within : ∀ r ∈ rows, r ∈ S) (ds : List Bool)
    : passing (arranged orderBy value (rows.zip ds)) = sortedRows orderBy value (passing (rows.zip ds)) := by
  unfold arranged sortedRows
  split
  · rfl
  obtain ⟨l, rfl⟩ := exists_given within
  let less (e e' : S × Bool) : Bool := beforeIn S value (sortKeys orderBy) e.1 e'.1
  let row (e : S × Bool) : Row × Bool := (e.1.1, e.2)
  have pairs : (l.map Subtype.val).zip ds = (l.zip ds).map row := by
    rw [zip_map_left]
    rfl
  have asymm (e e' : S × Bool) (before : less e e' = true) : less e' e = false := before_asymm before
  have settled' : StableSort.Settled less Prod.snd := by
    rintro e e' good good' other ⟨u, v, first, before, second⟩
    have leads {u v : S × Bool} (chain : StableSort.Leads less u v)
        : StableSort.Leads (beforeIn S value (sortKeys orderBy)) u.1 v.1 :=
      chain.lift Prod.fst fun _ _ follows => follows
    refine settled e.1 e'.1 rfl rfl (fun same => other (Prod.ext same (good.trans good'.symm))) ?_
    exact ⟨u.1, v.1, leads first, before, leads second⟩
  have kept (l : List (S × Bool)) : passing (l.map row) = (l.filter Prod.snd).map (fun e => e.1.1) := by
    rw [passing, filter_map, map_map]
    rfl
  rw [pairs, StableSort.sortBy_map row, kept, kept, StableSort.sortBy_map (fun e : S × Bool => e.1.1)]
  exact congrArg (map _) (settled'.sortBy_filter asymm (l.zip ds)).symm

end

/-- `WITH x [ORDER BY x] [LIMIT 1] WHERE x = 2`. -/
def withTwo (orderBy : List SortItem) (limit : Option Expr) : With :=
  ⟨false, false, [⟨.var (lit "x"), []⟩], orderBy, none, limit,
    some (.binary .eq (.var (lit "x")) (.literal (.int 2)))⟩

/-- After `UNWIND [1, 2] AS x`. -/
def unwound : Planner := Planner.bind { Planner.start with
  plan := .unwind Planner.start.plan (.listLiteral [.literal (.int 1), .literal (.int 2)]) (lit "x") } (lit "x")

/-- The projection of `x` there, without the parts that follow it. -/
def unwoundX : Plan.Op := (projectOrAggregate unwound false [⟨.var (lit "x"), []⟩] false).plan

/-- It yields `x = 1` and `x = 2`, in this order. -/
theorem rows_unwoundX {ins : Yielded} {ended : Bool} {x : Argument × Store}
    (reached : Reaches .bare .empty unwoundX (noArgument, .empty) ins ended x)
    : ∃ rest, [rowX (.int 1), rowX (.int 2)] = ins.map Prod.fst ++ rest := by
  obtain ⟨x, c, m, m', built, runs⟩ := reached.before
  cases built
  obtain ⟨_, rest, same, _⟩ := runs.rest (n := 10) rfl
  exact ⟨rest, same⟩

/-- The WITH over it can pass `x = 2` on. -/
theorem reaches_withTwo (orderBy : List SortItem) (limit : Option Expr) {m : Machine} {s : Store}
    (built : (buildWith .bare (planWith unwound (withTwo orderBy limit)).plan none .ordered).read .empty = .ok m)
    (collected : (collect (turn .bare) 20 (m, noArgument)).run .empty = (.ok (some [rowX (.int 2)]), s))
    : ∃ outs x, outs.map Prod.fst = [rowX (.int 2)]
      ∧ Reaches .bare .empty (planWith unwound (withTwo orderBy limit)).plan (noArgument, .empty) outs true x := by
  obtain ⟨outs, y, mid, z, runs, ended, same⟩ := runs_of_collect collected
  exact ⟨outs, (z.2, s), same, .ordered, m, z.1, built, y, mid, runs, ended⟩

/-- The rows are ordered by `x`, as integers are. -/
theorem settledKeys_unwoundX
    : SettledKeys (rowsOf .bare .empty unwoundX (noArgument, .empty)) [⟨.var (lit "x"), false⟩] inColumn := by
  have integral {r : Row} (given : r ∈ rowsOf .bare .empty unwoundX (noArgument, .empty)) : r ∈ integers := by
    obtain ⟨ins, ended, x, reached, member⟩ := given
    obtain ⟨rest, same⟩ := rows_unwoundX reached
    have among : r ∈ [rowX (.int 1), rowX (.int 2)] := same ▸ mem_append_left rest member
    rcases List.mem_pair.mp among with rfl | rfl
    · exact ⟨_, ⟨1, rfl⟩, rfl⟩
    · exact ⟨_, ⟨2, rfl⟩, rfl⟩
  let given := rowsOf .bare .empty unwoundX (noArgument, .empty)
  have cotrans (x y z : given) (less : beforeIn given inColumn byX x z = true)
      : beforeIn given inColumn byX x y = true ∨ beforeIn given inColumn byX y z = true :=
    cotrans_integers x.1 (integral x.2) y.1 (integral y.2) z.1 (integral z.2) less
  have irrefl (x : given) : beforeIn given inColumn byX x x = false := before_of_equalKeys fun _ _ => .inl rfl
  exact fun x y _ _ _ overtakes => StableSort.less_of_overtakes cotrans irrefl overtakes

end Intreccio.Exec
