import Intreccio.Exec.Columns

/-! SKIP and LIMIT of a RETURN (`skip.next` and `limit.next` of `internal/exec/exec.go`).
A LIMIT does not pull beyond its last row, and what the operators below it would write afterwards is not written.
It loses nothing if the operator below has read all of its input before its first row, or if there are fewer rows.
-/

namespace Intreccio.Exec

open Kv Words Graph Ast Plan Program Pull List

/-- The operator has read its input, and has only these rows left to yield. -/
inductive Unary.Has : Unary → List Row → Prop
  | sort {keys : List SortKey} {rows : List Row} {ch : Choices} : Unary.Has (.sort keys rows true ch) rows
  | aggregate {groupKeys aggs : List ProjItem} {groups : List Group} {rows : List Row} {ch : Choices}
      : Unary.Has (.aggregate groupKeys aggs (some groups) (some rows) ch) rows

/-- The operator reads all of its input before it yields a row. -/
inductive Unary.Gathers : Unary → Prop
  | sort {keys : List SortKey} {rows : List Row} {ch : Choices} : Unary.Gathers (.sort keys rows false ch)
  | aggregate {groupKeys aggs : List ProjItem} {groups : Option (List Group)} {ch : Choices}
      : Unary.Gathers (.aggregate groupKeys aggs groups none ch)

/-- All rows of such an operator are yielded when its input has ended, without any change to the store. -/
def Holds (_ : Yielded) (ended : Bool) (outs : Yielded) (s : Store) (u : Unary) : Prop :=
  (u.Gathers ∧ ended = false ∧ outs = []) ∨ ∃ rest, u.Has rest ∧ ended = true ∧ ∀ o ∈ outs, o.2 = s

section

variable {ctx : Context} {m : Machine} {a : Argument} {s s' : Store} {ins outs : Yielded} {ended : Bool}

theorem holds_law : Operates ctx Holds (fun _ _ outs s => ∀ o ∈ outs, o.2 = s) where
  reading := by
    rintro ins ended outs s u (⟨gathers, _⟩ | ⟨rest, has, _⟩)
    · cases gathers <;> trivial
    · cases has <;> trivial
  act := by
    rintro ins ended outs s u p t u' (⟨gathers, rfl, rfl⟩ | ⟨rest, has, rfl, still⟩) acts ran
    · cases gathers with
      | @sort keys rows ch => cases rows <;> cases acts
      | @aggregate groupKeys aggs groups ch =>
        cases groups with
        | none =>
          cases acts
          obtain ⟨specs, _, same⟩ := (read_bind_ok (reads_ofExcept _)).mp ran
          cases same
          exact ⟨fun _ => .inl ⟨.aggregate, rfl, rfl⟩, nofun⟩
        | some groups => cases acts
    · cases rest with
      | nil =>
        cases has <;> cases acts <;> cases ran <;> exact ⟨fun going => absurd rfl going, fun _ => still⟩
      | cons b rest =>
        have still' : ∀ o ∈ outs ++ [(b, s)], o.2 = s :=
          forall_mem_append.mpr ⟨still, forall_mem_singleton.mpr rfl⟩
        cases has <;> cases acts <;> cases ran
        · exact ⟨fun _ => .inr ⟨rest, .sort, rfl, still'⟩, nofun⟩
        · exact ⟨fun _ => .inr ⟨rest, .aggregate, rfl, still'⟩, nofun⟩
  idle := by
    rintro ins ended outs s u (⟨gathers, rfl, rfl⟩ | ⟨rest, has, rfl, still⟩) idle
    · exact ⟨rfl, fun _ => .inl ⟨gathers, rfl, rfl⟩⟩
    · cases rest <;> cases has <;> cases idle
  feed := by
    rintro ins outs u b s t u' (⟨gathers, _, rfl⟩ | ⟨rest, _, impossible, _⟩) idle ran
    · cases gathers with
      | sort =>
        cases ran
        exact ⟨nofun, .inl ⟨.sort, rfl, rfl⟩⟩
      | aggregate =>
        obtain ⟨specs, _, ran⟩ := (read_bind_ok (reads_ofExcept _)).mp ran
        obtain ⟨groups, _, same⟩ := (read_bind_ok (reads_addRow _ _ _ _ _ _)).mp ran
        cases same
        exact ⟨nofun, .inl ⟨.aggregate, rfl, rfl⟩⟩
    · cases impossible
  close := by
    rintro ins outs u s t u' (⟨gathers, _, rfl⟩ | ⟨rest, _, impossible, _⟩) idle ran
    · cases gathers with
      | sort =>
        obtain ⟨sorted, _, same⟩ := (read_bind_ok (reads_sortRows _ _ _ _)).mp ran
        cases same
        exact ⟨fun _ => .inr ⟨sorted, .sort, rfl, nofun⟩, nofun⟩
      | @aggregate groupKeys aggs groups ch =>
        cases groups with
        | none => cases idle
        | some groups =>
          obtain ⟨specs, _, same⟩ := (read_bind_ok (reads_ofExcept _)).mp ran
          cases same
          exact ⟨fun _ => .inr ⟨_, .aggregate, rfl, nofun⟩, nofun⟩
    · cases impossible

/-- An operator yields the rows that it has, by induction on these. -/
theorem reads_has {u : Unary} {rest : List Row} (has : u.Has rest) (m : Machine) (a : Argument) (s : Store)
    : ∃ y, Reads ctx (.unary m u, a) s (rest.map (·, s)) true y s := by
  induction rest generalizing u with
  | nil =>
    cases has
    all_goals exact ⟨_, _, s, .start, rfl⟩
  | cons b rest ih =>
    have next {u' : Unary} (has : u'.Has rest)
        (ran : (turn ctx (.unary m u, a)).run s = (.ok (.row b, .unary m u', a), s))
        : ∃ y, Reads ctx (.unary m u, a) s ((b :: rest).map (·, s)) true y s := by
      obtain ⟨y, z, mid, runs, ended⟩ := ih has
      exact ⟨y, z, mid, .first ran (Turn.row_ne_done b) runs, ended⟩
    cases has with
    | sort => exact next .sort rfl
    | aggregate => exact next .aggregate rfl

/-- A turn of an operator that waits for its input. -/
theorem turn_unary {u : Unary} {t : Turn Row} {y : Machine × Argument} (idle : u.act ctx = none)
    (stepped : (turn ctx (m, a)).run s = (.ok (t, y), s'))
    : (turn ctx (.unary m u, a)).run s = ((match t with
      | .row b => (u.feed ctx (some b)).bind fun r => ret (r.1, .unary y.1 r.2, y.2)
      | .again => ret (.again, .unary y.1 u, y.2)
      | .done => (u.feed ctx none).bind fun r => ret (r.1, .unary y.1 r.2, y.2)) : Txn _).run s' := by
  change (step ctx (.unary m u) a).run s = _
  rw [step, idle]
  refine (run_bind_of_ok stepped).trans ?_
  cases t <;> rfl

/-- A SKIP over a run leaves out the first rows, by induction on the turns. -/
theorem runs_skip {y : Machine × Argument} (runs : Runs (turn ctx) (m, a) s ins y s') (n : Nat)
    : Runs (turn ctx) (.unary m (.skip n), a) s (ins.drop n) (.unary y.1 (.skip (n - ins.length)), y.2) s' := by
  induction runs with
  | start => exact drop_nil.symm ▸ .start
  | @turn rows y z t mid after _ ran more ih =>
    have next := turn_unary (u := .skip (n - rows.length)) rfl ran
    cases t with
    | done => exact absurd rfl more
    | again => simpa [yielded] using ih.turn next Turn.again_ne_done
    | row b =>
      by_cases few : rows.length < n
      · obtain ⟨left, wanted⟩ : ∃ left, n - rows.length = left + 1 := ⟨n - rows.length - 1, by omega⟩
        rw [wanted] at next ih
        have skipped := ih.turn next Turn.again_ne_done
        rw [drop_eq_nil_of_le (Nat.le_of_lt few)] at skipped
        have none' : n - (rows ++ yielded (.row b) after).length = left := by simp [yielded]; omega
        rw [none', drop_eq_nil_of_le (by simpa [yielded] using Nat.succ_le_of_lt few)]
        exact skipped
      · have none' : n - rows.length = 0 := by omega
        rw [none'] at next ih
        have passed := ih.turn next (Turn.row_ne_done b)
        rw [drop_append_of_le_length (Nat.le_of_not_lt few), length_append, Nat.sub_add_eq, none', Nat.zero_sub]
        exact passed

/-- A LIMIT over a run takes its turns as long as it has not got its rows, and stands right after the last of them
then; by induction on the turns.
-/
theorem runs_limit {y : Machine × Argument} (runs : Runs (turn ctx) (m, a) s ins y s') {n : Nat} (some' : 0 < n)
    : (ins.length < n
        ∧ Runs (turn ctx) (.unary m (.limit n), a) s ins (.unary y.1 (.limit (n - ins.length)), y.2) s')
      ∨ ∃ (z : Machine × Argument) (o : Row × Store), Runs (turn ctx) (.unary m (.limit n), a) s (ins.take n) (.unary z.1 (.limit 0), z.2) o.2
        ∧ o ∈ ins ∧ n ≤ ins.length := by
  induction runs with
  | start => exact .inl ⟨some', .start⟩
  | @turn rows y z t mid after _ ran more ih =>
    rcases ih with ⟨few, ih⟩ | ⟨z, o, ih, member, enough⟩
    · obtain ⟨left, wanted⟩ : ∃ left, n - rows.length = left + 1 := ⟨n - rows.length - 1, by omega⟩
      rw [wanted] at ih
      have next := turn_unary (u := .limit (left + 1)) rfl ran
      cases t with
      | done => exact absurd rfl more
      | again =>
        have waits := ih.turn next Turn.again_ne_done
        exact .inl ⟨by simpa [yielded] using few, by simpa [yielded, wanted] using waits⟩
      | row b =>
        have passed := ih.turn next (Turn.row_ne_done b)
        by_cases last : left = 0
        · subst last
          refine .inr ⟨z, (b, after), ?_, by simp [yielded], by simp [yielded]; omega⟩
          rw [take_of_length_le (by simp [yielded]; omega)]
          exact passed
        · have left' : n - (rows ++ yielded (.row b) after).length = left := by simp [yielded]; omega
          refine .inl ⟨by simp [yielded]; omega, ?_⟩
          rw [left']
          exact passed
    · refine .inr ⟨z, o, ?_, mem_append_left _ member, by simp; omega⟩
      rw [take_append_of_le_length enough]
      exact ih

end

def skipOver (m : Machine) (skip : Option Nat) : Machine := skip.elim m (fun n => .unary m (.skip n))

def limitOver (m : Machine) (limit : Option Nat) : Machine := limit.elim m (fun n => .unary m (.limit n))

/-- The rows that the bounds let through. -/
def segment {α : Type} (skip limit : Option Nat) (rows : List α) : List α :=
  let rows := rows.drop (skip.getD 0)
  limit.elim rows rows.take

theorem mem_of_mem_segment {α : Type} {skip limit : Option Nat} {rows : List α} {r : α}
    (member : r ∈ segment skip limit rows)
    : r ∈ rows := by
  cases limit with
  | none => exact mem_of_mem_drop member
  | some n => exact mem_of_mem_drop (mem_of_mem_take member)

/-- Rows after those of a LIMIT that is used up make no difference. -/
theorem segment_append {α : Type} {skip : Option Nat} {n : Nat} {rows rest : List α}
    (enough : n + skip.getD 0 ≤ rows.length)
    : segment skip (some n) rows = segment skip (some n) (rows ++ rest) := by
  change (rows.drop (skip.getD 0)).take n = ((rows ++ rest).drop (skip.getD 0)).take n
  rw [drop_append_of_le_length (by omega), take_append_of_le_length (by rw [length_drop]; omega)]

/-- Once it has yielded a row, the iterator has nothing left to do but to yield the others. -/
def Settles (ctx : Context) (x : Machine × Argument) (s : Store) : Prop :=
  (∀ ins y s', Reads ctx x s ins false y s' → ins ≠ [] → ∃ rest z, Reads ctx x s (ins ++ rest) true z s')
    ∧ ∀ ins y s', Reads ctx x s ins true y s' → ∀ o ∈ ins, o.2 = s'

section

variable {ctx : Context} {m : Machine} {a : Argument} {s s' : Store} {ins outs : Yielded} {ended : Bool}
  {skip limit : Option Nat}

theorem Reads.before {x y : Machine × Argument} (reads : Reads ctx x s ins ended y s')
    : ∃ y s', Reads ctx x s ins false y s' := by
  cases ended with
  | false => exact ⟨y, s', reads⟩
  | true =>
    obtain ⟨z, mid, runs, _⟩ := reads
    exact ⟨z, mid, runs⟩

/-- An operator that gathers its input settles: its rows are left when it has yielded the first. -/
theorem settles_of_gathers {u : Unary} (gathers : u.Gathers) : Settles ctx (.unary m u, a) s := by
  have start (s : Store) : Holds [] false [] s u := .inl ⟨gathers, rfl, rfl⟩
  refine ⟨fun ins y s' reads some' => ?_, fun ins y s' reads => ?_⟩
  · obtain ⟨input, u', a', _, _, rfl, _, ⟨_, _, rfl⟩ | ⟨rest, has, _⟩⟩ := holds_law.runs (start s) reads
    · exact absurd rfl some'
    · obtain ⟨z, y, mid, runs, ended⟩ := reads_has has input a' s'
      exact ⟨_, z, y, mid, reads.trans runs, ended⟩
  · obtain ⟨_, _, _, _, _, _, _, still⟩ := holds_law.finishes (start s) reads
    exact still

theorem reads_skipOver {y : Machine × Argument} (reads : Reads ctx (m, a) s ins ended y s') (skip : Option Nat)
    : ∃ z, Reads ctx (skipOver m skip, a) s (ins.drop (skip.getD 0)) ended z s' := by
  cases skip with
  | none => exact ⟨y, reads⟩
  | some n =>
    cases ended with
    | false => exact ⟨_, runs_skip reads n⟩
    | true =>
      obtain ⟨z, mid, runs, last⟩ := reads
      refine ⟨(.unary y.1 (.skip 0), y.2), _, mid, runs_skip runs n, ?_⟩
      rw [turn_unary rfl last]
      cases n - ins.length <;> rfl

theorem of_reads_skipOver {z : Machine × Argument} (reads : Reads ctx (skipOver m skip, a) s outs ended z s')
    : ∃ ins ended' y, Reads ctx (m, a) s ins ended' y s' ∧ outs = ins.drop (skip.getD 0)
      ∧ (ended = true → ended' = true) := by
  cases skip with
  | none => exact ⟨outs, ended, z, reads, rfl, id⟩
  | some n =>
    have start (s : Store) : Skips n [] false [] s (.skip n) := ⟨rfl, rfl, drop_nil.symm⟩
    cases ended with
    | false =>
      obtain ⟨input, u, a', ins, ended', rfl, reads, _, _, same⟩ := (skips_law n).runs (start s) reads
      exact ⟨ins, ended', _, reads, same, nofun⟩
    | true =>
      obtain ⟨input, u, a', ins, ended', rfl, reads, rfl, same⟩ := (skips_law n).finishes (start s) reads
      exact ⟨ins, true, _, reads, same, fun _ => rfl⟩

/-- Bounds let rows of a run through, up to its end or until the LIMIT is used up. -/
theorem of_reads_bounded {z : Machine × Argument}
    (reads : Reads ctx (limitOver (skipOver m skip) limit, a) s outs true z s')
    : ∃ ins ended y, Reads ctx (m, a) s ins ended y s' ∧ outs = segment skip limit ins
      ∧ (ended = true ∨ limit = some (ins.drop (skip.getD 0)).length) := by
  cases limit with
  | none =>
    obtain ⟨ins, ended, y, reads, same, all⟩ := of_reads_skipOver reads
    exact ⟨ins, ended, y, reads, same, .inl (all rfl)⟩
  | some n =>
    obtain ⟨_, _, _, mids, ended, _, reads, rfl, few, stopped⟩ :=
      (limits_law n).finishes ⟨rfl, rfl, Nat.zero_le n, rfl⟩ reads
    obtain ⟨ins, ended', y, below, rfl, all⟩ := of_reads_skipOver reads
    exact ⟨ins, ended', y, below, (take_of_length_le few).symm, stopped.imp all fun full => congrArg some full.symm⟩

/-- With a LIMIT that gets no less than it would read, or over an iterator that settles, all is done that is done
without the bounds, and the rows are those that the bounds let through.
-/
theorem reads_bounded_iff
    (pulls : ∀ n, limit = some n → 0 < n ∧ (Settles ctx (m, a) s
      ∨ ∀ ins y s', Reads ctx (m, a) s ins false y s' → ins.length < skip.getD 0 + n))
    : (∃ z, Reads ctx (limitOver (skipOver m skip) limit, a) s outs true z s')
      ↔ ∃ ins z, Reads ctx (m, a) s ins true z s' ∧ outs = segment skip limit ins := by
  constructor
  · rintro ⟨z, reads⟩
    obtain ⟨ins, ended, y, reads, rfl, stopped⟩ := of_reads_bounded reads
    cases ended with
    | true => exact ⟨ins, y, reads, rfl⟩
    | false =>
      have full := stopped.resolve_left nofun
      rw [length_drop] at full
      obtain ⟨some', enough⟩ := pulls _ full
      rcases enough with settles | fewer
      · obtain ⟨rest, z, reads⟩ := settles.1 ins y s' reads (ne_nil_of_length_pos (by omega))
        refine ⟨ins ++ rest, z, reads, ?_⟩
        rw [full, segment_append]
        omega
      · have := fewer ins y s' reads
        omega
  · rintro ⟨ins, z, reads, rfl⟩
    obtain ⟨y, mid, before⟩ := reads.before
    cases limit with
    | none => exact reads_skipOver reads skip
    | some n =>
      obtain ⟨some', enough⟩ := pulls n rfl
      obtain ⟨z', z, mid, runs, last⟩ := reads_skipOver reads skip
      rcases runs_limit runs some' with ⟨few, limited⟩ | ⟨z, o, limited, member, full⟩
      · obtain ⟨left, wanted⟩ : ∃ left, n - (ins.drop (skip.getD 0)).length = left + 1 :=
          ⟨n - (ins.drop (skip.getD 0)).length - 1, by omega⟩
        rw [wanted] at limited
        have ended := turn_unary (u := .limit (left + 1)) rfl last
        have all : segment skip (some n) ins = ins.drop (skip.getD 0) := take_of_length_le (Nat.le_of_lt few)
        rw [all]
        exact ⟨_, _, mid, limited, ended⟩
      · rcases enough with settles | fewer
        · obtain rfl : o.2 = s' := settles.2 ins _ s' reads o (mem_of_mem_drop member)
          exact ⟨_, _, o.2, limited, rfl⟩
        · have := fewer ins y _ before
          rw [length_drop] at full
          omega

end

/-- A bound is absent, or an expression that counts the given rows; a negative integer counts none. -/
def CountIs (ctx : Context) (store : Store) : Option Expr → Option Nat → Prop
  | none, none => True
  | some e, some n => ∀ c, (evalCount ctx e c).read store = .ok n
  | _, _ => False

def bounded (p : Plan.Op) (skip limit : Option Expr) : Plan.Op :=
  let p := skip.elim p (.skip p)
  limit.elim p (.limit p)

/-- The choices of the plan below the bounds. -/
def belowBounds (skip limit : Option Expr) (c : Choices) : Choices :=
  let c := if limit.isSome then c.sub 0 else c
  if skip.isSome then c.sub 0 else c

def unbounded (r : Return) : Return := { r with skip := none, limit := none }

/-- The RETURN reads all rows of the clauses before it before it yields its first row. -/
def GathersRows (r : Return) : Prop := r.orderBy ≠ [] ∨ ∃ it ∈ r.items, containsAggregate it.expr = true

/-- The plan, built on one store and run from a moment on with the choices, ends with the rows and leaves the
store.
-/
def CompletesWith (ctx : Context) (store : Store) (p : Plan.Op) (c : Choices) (start : Argument × Store)
    (rows : List Row) (s' : Store) : Prop :=
  ∃ m outs y, (buildWith ctx p none c).read store = .ok m ∧ Reads ctx (m, start.1) start.2 outs true y s'
    ∧ outs.map Prod.fst = rows

section

variable {ctx : Context} {store : Store} {p : Plan.Op} {c : Choices} {pre : List Clause} {r : Return}
  {j k : Option Nat}

/-- The machine of a plan with bounds is that of the plan, below the counts. -/
theorem build_bounded {skip limit : Option Expr} (skips : CountIs ctx store skip j)
    (limits : CountIs ctx store limit k) (b : Machine)
    : (buildWith ctx (bounded p skip limit) none c).read store = .ok b
      ↔ ∃ m, (buildWith ctx p none (belowBounds skip limit c)).read store = .ok m
        ∧ b = limitOver (skipOver m j) k := by
  have counted {top : Plan.Op → Expr → Plan.Op} {u : Nat → Unary} {p : Plan.Op} {e : Expr} {n : Nat} {c : Choices}
      (built : buildWith ctx (top p e) none c = (buildWith ctx p none (c.sub 0)).bind fun m =>
        (evalCount ctx e (c.sub 2)).bind fun n => ret (.unary m (u n)))
      (counts : CountIs ctx store (some e) (some n)) (b : Machine)
      : (buildWith ctx (top p e) none c).read store = .ok b
        ↔ ∃ m, (buildWith ctx p none (c.sub 0)).read store = .ok m ∧ b = .unary m (u n) := by
    rw [built, read_bind_ok (reads_buildWith _ _ _ _)]
    refine exists_congr fun m => and_congr_right fun _ => ?_
    rw [read_bind (reads_evalCount _ _ _), counts]
    exact ⟨fun same => (Except.ok.inj same).symm, fun same => same ▸ rfl⟩
  have skipped (c : Choices) (b : Machine)
      : (buildWith ctx (skip.elim p (.skip p)) none c).read store = .ok b
        ↔ ∃ m, (buildWith ctx p none (if skip.isSome then c.sub 0 else c)).read store = .ok m
          ∧ b = skipOver m j := by
    match skip, j, skips with
    | none, none, _ => exact ⟨fun built => ⟨b, built, rfl⟩, fun ⟨_, built, same⟩ => same ▸ built⟩
    | some e, some n, skips => exact counted rfl skips b
  match limit, k, limits with
  | none, none, _ => exact skipped c b
  | some e, some n, limits =>
    refine (counted rfl limits b).trans ⟨?_, ?_⟩
    · rintro ⟨m', built, rfl⟩
      obtain ⟨m, below, rfl⟩ := (skipped _ _).mp built
      exact ⟨m, below, rfl⟩
    · rintro ⟨m, built, rfl⟩
      exact ⟨_, (skipped _ _).mpr ⟨m, built, rfl⟩, rfl⟩

theorem map_segment {α β : Type} (f : α → β) (l : List α) : (segment j k l).map f = segment j k (l.map f) := by
  cases k <;> simp [segment, map_drop, map_take]

/-- The machine of such a RETURN has an operator on top that gathers. -/
theorem settles_of_gathersRows {pl : Planner} {m : Machine} (gathers : GathersRows r)
    (built : (buildWith ctx (planReturn pl (unbounded r)).plan none c).read store = .ok m) (a : Argument) (s : Store)
    : Settles ctx (m, a) s := by
  have aggregated {p : Plan.Op} (grouping : ∃ it ∈ r.items, containsAggregate it.expr = true)
      (same : p = (projectOrAggregate pl r.star r.items r.distinct).plan)
      (built : (buildWith ctx p none c).read store = .ok m)
      : Settles ctx (m, a) s := by
    obtain ⟨it, listed, aggregate⟩ := grouping
    have among : itemOf it ∈ expandItems pl r.star r.items := mem_append_right _ (mem_map_of_mem listed)
    have some' : ((expandItems pl r.star r.items).filter fun it => containsAggregate it.expr).isEmpty = false :=
      isEmpty_eq_false_iff_exists_mem.mpr ⟨_, mem_filter.mpr ⟨among, aggregate⟩⟩
    simp only [projectOrAggregate, Planner.bindAll_keeps, some', Bool.false_eq_true, if_false] at same
    rw [same] at built
    obtain ⟨input, _, same⟩ := (read_bind_ok (reads_buildWith _ _ _ _)).mp built
    cases same
    exact settles_of_gathers .aggregate
  cases sorted : r.orderBy with
  | nil =>
    refine aggregated (gathers.resolve_left fun keyed => keyed sorted) ?_ built
    simp [planReturn, unbounded, applyTail, sorted]
  | cons k rest =>
    have top : (planReturn pl (unbounded r)).plan = .sort (projectOrAggregate pl r.star r.items r.distinct).plan
        ((k :: rest).map fun k => ⟨k.expr, k.desc⟩) := by
      simp [planReturn, unbounded, applyTail, sorted]
    rw [top] at built
    obtain ⟨input, _, same⟩ := (read_bind_ok (reads_buildWith _ _ _ _)).mp built
    cases same
    exact settles_of_gathers .sort

/-- With a LIMIT that stops nothing, an arm with bounds ends exactly when it ends without them, with the same store,
and its rows are those that the bounds let through.
-/
theorem bounds_keep_writes {cat : Plan.Catalog} {p p' : Plan.Op} {cols cols' : List Str} {start : Argument × Store}
    (planned : planArm cat (pre ++ [.ofReturn r]) = .ok (p, cols))
    (planned' : planArm cat (pre ++ [.ofReturn (unbounded r)]) = .ok (p', cols'))
    (skips : CountIs ctx store r.skip j) (limits : CountIs ctx store r.limit k)
    (pulls : ∀ n, k = some n → 0 < n
      ∧ (GathersRows r ∨ ∀ ins x, Reaches ctx store p' start ins false x → ins.length < j.getD 0 + n))
    (c : Choices) (rows : List Row) (s' : Store)
    : CompletesWith ctx store p c start rows s'
      ↔ ∃ all, CompletesWith ctx store p' (belowBounds r.skip r.limit c) start all s' ∧ rows = segment j k all := by
  obtain ⟨pl, before, rfl⟩ := planArm_return planned
  obtain ⟨pl', before', rfl⟩ := planArm_return planned'
  cases before.symm.trans before'
  have top : (planReturn pl r).plan = bounded (planReturn pl (unbounded r)).plan r.skip r.limit := rfl
  have iff {m : Machine}
      (built : (buildWith ctx (planReturn pl (unbounded r)).plan none (belowBounds r.skip r.limit c)).read store = .ok m)
      (outs : Yielded)
      : (∃ z, Reads ctx (limitOver (skipOver m j) k, start.1) start.2 outs true z s')
        ↔ ∃ ins z, Reads ctx (m, start.1) start.2 ins true z s' ∧ outs = segment j k ins := by
    refine reads_bounded_iff fun n some' => (pulls n some').imp_right fun enough => ?_
    refine enough.imp (fun gathers => settles_of_gathersRows gathers built _ _) fun fewer ins y s' reads => ?_
    exact fewer ins (y.2, s') ⟨_, m, y.1, built, reads⟩
  rw [top]
  constructor
  · rintro ⟨b, outs, z, built, reads, rfl⟩
    obtain ⟨m, below, rfl⟩ := (build_bounded skips limits b).mp built
    obtain ⟨ins, y, reads', rfl⟩ := (iff below outs).mp ⟨z, reads⟩
    exact ⟨_, ⟨m, ins, y, below, reads', rfl⟩, map_segment _ _⟩
  · rintro ⟨_, ⟨m, ins, z, built, reads, rfl⟩, rfl⟩
    obtain ⟨z, reads⟩ := (iff built _).mpr ⟨ins, z, reads, rfl⟩
    exact ⟨_, _, z, (build_bounded skips limits _).mpr ⟨m, built, rfl⟩, reads, map_segment _ _⟩

end

/-- `UNWIND [1, 2] AS x CREATE (:A)`. -/
def createTwice : List Clause :=
  [.ofUnwind (.listLiteral [.literal (.int 1), .literal (.int 2)]) (lit "x"),
    .ofCreate [⟨[], ⟨[], [lit "A"], .empty⟩, [], .notShortest⟩]]

/-- `RETURN x LIMIT 1`, with keys for an ORDER BY. -/
def returnFirst (orderBy : List SortItem) : Return :=
  ⟨false, false, [⟨.var (lit "x"), []⟩], orderBy, none, some (.literal (.int 1))⟩

/-- With `ORDER BY x` both nodes are created. -/
theorem bounds_keep_writes_sorted
    : ∃ p p' cols cols', planArm (planCatalog .empty) (createTwice ++ [.ofReturn (returnFirst [⟨.var (lit "x"), false⟩])])
        = .ok (p, cols)
      ∧ planArm (planCatalog .empty) (createTwice ++ [.ofReturn (unbounded (returnFirst [⟨.var (lit "x"), false⟩]))])
        = .ok (p', cols')
      ∧ ∀ c rows s', CompletesWith .bare .empty p c (noArgument, .empty) rows s'
        ↔ ∃ all, CompletesWith .bare .empty p' (c.sub 0) (noArgument, .empty) all s' ∧ rows = segment none (some 1) all := by
  obtain ⟨⟨p, cols⟩, planned⟩ : ∃ found, planArm (planCatalog .empty)
      (createTwice ++ [.ofReturn (returnFirst [⟨.var (lit "x"), false⟩])]) = .ok found := ⟨_, rfl⟩
  obtain ⟨⟨p', cols'⟩, planned'⟩ : ∃ found, planArm (planCatalog .empty)
      (createTwice ++ [.ofReturn (unbounded (returnFirst [⟨.var (lit "x"), false⟩]))]) = .ok found := ⟨_, rfl⟩
  have skips : CountIs .bare .empty (returnFirst [⟨.var (lit "x"), false⟩]).skip none := trivial
  have limits : CountIs .bare .empty (returnFirst [⟨.var (lit "x"), false⟩]).limit (some 1) := fun _ => rfl
  refine ⟨p, p', cols, cols', planned, planned', bounds_keep_writes planned planned' skips limits fun n same => ?_⟩
  exact ⟨Option.some.inj same ▸ Nat.one_pos, .inl (.inl nofun)⟩

/-- The LIMIT keeps the second node from being created. -/
theorem limit_drops_writes
    : (query .bare ⟨createTwice ++ [.ofReturn (returnFirst [])], []⟩ 10 .ordered .empty).2
      ≠ (query .bare ⟨createTwice ++ [.ofReturn (unbounded (returnFirst []))], []⟩ 10 .ordered .empty).2 := by
  intro same
  have sizes := congrArg (fun s : Store => s.entries.length) same
  revert sizes
  decide +kernel

end Intreccio.Exec
