import Intreccio.Exec.Columns
import Intreccio.Exec.Refinement
import Intreccio.Storage.Bolt

/-! Which queries write (`isWriteQuery` and `DB.Query` in `intreccio.go`, `Tx.Query` in `tx.go`).
The classifier looks at the clauses of the first arm only, while the plan has the operators of all arms.
-/

namespace Intreccio

open Kv Words Ast Plan Program List

namespace Exec

def isWriteClause : Clause → Bool
  | .ofCreate _ | .ofMerge _ | .ofSet _ | .ofRemove _ | .ofDelete _ _ | .ofCreateIndex _ | .ofDropIndex _ _
  | .ofCreateConstraint _ _ _ | .ofDropConstraint _ _ => true
  | _ => false

def isWriteQuery (q : Query) : Bool := q.clauses.any isWriteClause

/-- What a node of a cluster knows of itself: a dataless client is not local. -/
structure ClusterBackend where
  isLocal : Bool
  isLeader : Bool

/-- Where `DB.Query` runs a query: on another node, or on this one in a replicated write or in a read-only
transaction, possibly after a read barrier.
-/
inductive Route where
  | forward (write linearizable : Bool)
  | applyWrite
  | view (barrier : Bool)
deriving DecidableEq

/-- The routing of `DB.Query` and `runLocal`; an embedded database has no cluster. -/
def route (cluster : Option ClusterBackend) (linearizable : Bool) (q : Query) : Route :=
  let write := isWriteQuery q
  match cluster with
  | none => if write then .applyWrite else .view false
  | some cb =>
    if !cb.isLocal || (write && !cb.isLeader) || (linearizable && !write && !cb.isLeader) then
      .forward write (linearizable && !write)
    else if write then .applyWrite
    else .view (linearizable && cb.isLeader)

/-- The query runs as a write: it is forwarded as one, or it is applied by the leader or the only node. -/
def Route.AsWrite (cluster : Option ClusterBackend) (r : Route) : Prop :=
  r = .forward true false ∨ r = .applyWrite ∧ ∀ cb ∈ cluster, cb.isLocal = true ∧ cb.isLeader = true

def errReadOnlyTx : Err := .plain "intreccio: write query in a read-only transaction"

/-- `runQuery` in a read-only transaction, where the store refuses writes with the error `refused`. -/
def runQueryInView (refused : Err) (ctx : Context) (q : Query) (columns : List Str) (turns : Nat) (c : Choices)
    (s : Store) : Except Err (List (List Val)) × Store :=
  match plan q (planCatalog s) with
  | .error e => (.error e, s)
  | .ok p => ((run ctx p columns turns c).view refused).run s

def viewQuery (refused : Err) (ctx : Context) (q : Query) (turns : Nat) (c : Choices) (s : Store)
    : Except Err (List (List Val)) × Store :=
  match Sema.analyze q with
  | .error e => (.error e, s)
  | .ok columns =>
    if isWriteQuery q then (.error errReadOnlyTx, s)
    else
      let (r, s') := runQueryInView refused ctx q columns turns c s
      (r.mapError (.because "query"), s')

end Exec

namespace Plan

variable {cat : Catalog} {pl pl' : Planner} {eqs : List Equality} {ranges : List RangePred} {p scan : Op}

theorem readOnly_scoreNode (cat : Catalog) (pl : Planner) (nd : PNode) (eqs : List Equality)
    (ranges : List RangePred)
    : (scoreNode cat pl nd eqs ranges).2.1.readOnly = true := by
  rw [scoreNode]
  split
  · rfl
  · split
    · rfl
    · split <;> rfl

theorem readOnly_chooseAnchor (cat : Catalog) (pl : Planner) (nodes : List PNode) (eqs : List Equality)
    (ranges : List RangePred)
    : (chooseAnchor cat pl nodes eqs ranges).2.1.readOnly = true := by
  have best (l : List (PNode × Nat)) (old : Option Anchor) (good : ∀ a ∈ old, a.2.2.1.readOnly = true)
      : ∀ a ∈ l.foldl (anchorStep cat pl eqs ranges) old, a.2.2.1.readOnly = true := by
    induction l generalizing old with
    | nil => exact good
    | cons first rest ih =>
      refine ih _ (fun a chosen => ?_)
      have scanned := readOnly_scoreNode cat pl first.1 (equalitiesOf eqs first.1.name)
        (rangesOf ranges first.1.name)
      unfold anchorStep at chosen
      split at chosen
      · exact good a chosen
      · dsimp only at chosen
        unfold betterAnchor at chosen
        split at chosen
        · cases chosen
          exact scanned
        · split at chosen
          · cases chosen
            exact scanned
          · exact good a chosen
  unfold chooseAnchor
  split
  next chosen => exact best nodes.zipIdx none (fun _ => nofun) _ chosen
  next => rfl

theorem readOnly_joinScan (before : p.readOnly = true) (access : scan.readOnly = true)
    : (joinScan p scan).readOnly = true := by
  unfold joinScan
  split
  · exact access
  · split
    · exact Bool.and_eq_true_iff.mpr ⟨before, access⟩
    · exact Bool.and_eq_true_iff.mpr ⟨before, access⟩

theorem readOnly_stack (before : p.readOnly = true) (expands : List Expand)
    : (stack p expands).readOnly = true := by
  induction expands generalizing p with
  | nil => exact before
  | cons x rest ih => exact ih (p := .expand p x) before

/-- Naming the elements of a pattern changes the number of invented names only. -/
@[simp] theorem makeNode_plan (pl : Planner) (n : NodePattern) : (makeNode pl n).2.plan = pl.plan := by
  unfold makeNode
  split <;> rfl

@[simp] theorem makeRel_plan (pl : Planner) (r : RelPattern) : (makeRel pl r).2.plan = pl.plan := by
  unfold makeRel
  split <;> rfl

@[simp] theorem buildChain_plan (pl : Planner) (chain : List PatternChain)
    : (buildChain pl chain).2.plan = pl.plan := by
  induction chain generalizing pl with
  | nil => rfl
  | cons ch rest ih => simp [buildChain, ih]

@[simp] theorem buildPart_plan (pl : Planner) (part : PatternPart)
    : (buildPart pl part).2.2.plan = pl.plan := by
  simp [buildPart]

@[simp] theorem emitExpands_plan (pl : Planner) (steps : List (Hop × Bool))
    : (emitExpands pl steps).2.plan = pl.plan := by
  induction steps generalizing pl with
  | nil => rfl
  | cons step rest ih =>
    obtain ⟨⟨left, rel, right⟩, reversed⟩ := step
    cases reversed <;> simp [emitExpands, emitExpand, ih]

/-- Expanding from an anchor only stacks expands on the plan. -/
theorem readOnly_finishPart (before : pl.plan.readOnly = true) (part : PatternPart) (nodes : List PNode)
    (rels : List PRel) (steps : List (Hop × Bool))
    : (finishPart pl part nodes rels steps).1.plan.readOnly = true := by
  unfold finishPart
  refine readOnly_stack ?_ _
  rw [emitExpands_plan]
  exact before

theorem readOnly_planShortest {part : PatternPart} (before : pl.plan.readOnly = true)
    (planned : planShortest pl part = .ok pl')
    : pl'.plan.readOnly = true := by
  unfold planShortest at planned
  split at planned
  · cases planned
  · dsimp only at planned
    split at planned
    · cases planned
    · split at planned
      · cases planned
      · obtain rfl := Except.ok.inj planned
        rw [(Planner.bindAll_keeps _ _).1]
        exact before

/-- A part is planned by a shortest path, from a node that is bound, from a relationship or from a node that a
scan finds: every access path reads.
-/
theorem readOnly_planPart {part : PatternPart} {consumed : List Nat} {result : PartResult}
    (before : pl.plan.readOnly = true) (planned : planPart cat pl part eqs ranges consumed = .ok result)
    : result.1.plan.readOnly = true := by
  unfold planPart at planned
  split at planned
  · obtain ⟨mid, grown, same⟩ := bind_eq_ok.mp planned
    obtain rfl := Except.ok.inj same
    exact readOnly_planShortest before grown
  · dsimp only at planned
    rw [← buildPart_plan pl part] at before
    generalize buildPart pl part = built at planned before
    obtain ⟨nodes, rels, mid⟩ := built
    dsimp only at planned before
    split at planned
    · obtain rfl := Except.ok.inj planned
      exact readOnly_finishPart before part nodes rels _
    · split at planned
      · obtain rfl := Except.ok.inj planned
        refine readOnly_finishPart ?_ part nodes rels _
        rw [(Planner.bindAll_keeps _ _).1]
        exact readOnly_joinScan before rfl
      · obtain rfl := Except.ok.inj planned
        refine readOnly_finishPart ?_ part _ rels _
        rw [(Planner.bind_keeps _ _).1]
        exact readOnly_joinScan before (readOnly_chooseAnchor cat mid nodes eqs ranges)

theorem readOnly_planParts (parts : List PatternPart) {consumed : List Nat} {result : PartResult}
    (before : pl.plan.readOnly = true) (planned : planParts cat eqs ranges parts pl consumed = .ok result)
    : result.1.plan.readOnly = true := by
  induction parts generalizing pl consumed result with
  | nil => exact Except.ok.inj planned ▸ before
  | cons part rest ih =>
    obtain ⟨mid, here, planned⟩ := bind_eq_ok.mp planned
    obtain ⟨last, later, same⟩ := bind_eq_ok.mp planned
    obtain rfl := Except.ok.inj same
    have kept := ih (readOnly_planPart before here) later
    exact kept

theorem readOnly_planPattern {m : Match} (before : pl.plan.readOnly = true)
    (planned : planPattern cat pl m = .ok pl')
    : pl'.plan.readOnly = true := by
  obtain ⟨⟨mid, residual, consumed⟩, done, planned⟩ := bind_eq_ok.mp planned
  have matched : mid.plan.readOnly = true := readOnly_planParts _ before done
  obtain ⟨_, _, planned⟩ := bind_eq_ok.mp planned
  dsimp only at planned
  split at planned
  · obtain rfl := Except.ok.inj planned
    exact matched
  · obtain rfl := Except.ok.inj planned
    exact matched

theorem readOnly_planMatch {m : Match} (before : pl.plan.readOnly = true) (planned : planMatch cat pl m = .ok pl')
    : pl'.plan.readOnly = true := by
  unfold planMatch at planned
  split at planned
  · obtain ⟨inner, done, same⟩ := bind_eq_ok.mp planned
    have inside : inner.plan.readOnly = true := readOnly_planPattern rfl done
    exact Except.ok.inj same ▸ Bool.and_eq_true_iff.mpr ⟨before, inside⟩
  · exact readOnly_planPattern before planned

theorem readOnly_projectOrAggregate (before : pl.plan.readOnly = true) (star : Bool) (items : List ReturnItem)
    (distinct : Bool)
    : (projectOrAggregate pl star items distinct).plan.readOnly = true := by
  rw [projectOrAggregate, (Planner.bindAll_keeps _ _).1]
  dsimp only
  split <;> exact before

theorem readOnly_applyTail (before : p.readOnly = true) (orderBy : List SortItem) (skip limit : Option Expr)
    : (applyTail p orderBy skip limit).readOnly = true := by
  unfold applyTail
  cases orderBy <;> cases skip <;> cases limit <;> exact before

/-- A clause that is no write clause adds no operator that writes. -/
theorem readOnly_planClause {clause : Clause} (reads : Exec.isWriteClause clause = false)
    (before : pl.plan.readOnly = true) (planned : planClause cat pl clause = .ok pl')
    : pl'.plan.readOnly = true := by
  cases clause with
  | ofMatch m => exact readOnly_planMatch before planned
  | ofWith w =>
    obtain rfl := Except.ok.inj planned
    refine readOnly_applyTail ?_ _ _ _
    cases w.cond <;> exact readOnly_projectOrAggregate before _ _ _
  | ofReturn r =>
    obtain rfl := Except.ok.inj planned
    exact readOnly_applyTail (readOnly_projectOrAggregate before _ _ _) _ _ _
  | ofUnwind e asName =>
    obtain rfl := Except.ok.inj planned
    rw [(Planner.bind_keeps _ _).1]
    exact before
  | ofShowIndexes | ofShowConstraints =>
    obtain rfl := Except.ok.inj planned
    rw [(Planner.bindAll_keeps _ _).1]
    rfl
  | ofCreate _ | ofMerge _ | ofSet _ | ofRemove _ | ofDelete _ _ | ofCreateIndex _ | ofDropIndex _ _
  | ofCreateConstraint _ _ _ | ofDropConstraint _ _ => cases reads

theorem readOnly_planClauses {clauses : List Clause} (reads : clauses.any Exec.isWriteClause = false)
    (before : pl.plan.readOnly = true) (planned : planClauses cat clauses pl = .ok pl')
    : pl'.plan.readOnly = true := by
  induction clauses generalizing pl with
  | nil => exact Except.ok.inj planned ▸ before
  | cons first rest ih =>
    obtain ⟨here, later⟩ := Bool.or_eq_false_iff.mp reads
    obtain ⟨mid, stepped, planned⟩ := bind_eq_ok.mp planned
    exact ih later (readOnly_planClause here before stepped) planned

theorem readOnly_planArm {arm : List Clause} {cols : List Str} (reads : arm.any Exec.isWriteClause = false)
    (planned : planArm cat arm = .ok (p, cols))
    : p.readOnly = true := by
  obtain ⟨pl, done, planned⟩ := bind_eq_ok.mp planned
  have kept : pl.plan.readOnly = true := readOnly_planClauses reads rfl done
  dsimp only at planned
  split at planned
  · cases planned
  · cases planned
    exact kept

theorem allReadOnly_iff {l : List Op} : allReadOnly l = true ↔ ∀ p ∈ l, p.readOnly = true := by
  induction l with
  | nil => exact iff_of_true rfl (fun _ member => absurd member not_mem_nil)
  | cons p rest ih =>
    rw [allReadOnly, Bool.and_eq_true_iff, ih, forall_mem_cons]

theorem readOnly_plan {q : Query} (reads : ∀ arm ∈ arms q, arm.any Exec.isWriteClause = false)
    (planned : plan q cat = .ok p)
    : p.readOnly = true := by
  obtain ⟨_, cols, arm⟩ | ⟨parts, columns, all, rfl, each⟩ := Exec.plan_arms planned
  · exact readOnly_planArm (reads _ mem_cons_self) arm
  · refine allReadOnly_iff.mpr (fun part member => ?_)
    obtain ⟨arm, isArm, cols, done⟩ := Exec.exists_left_of_mem each member
    exact readOnly_planArm (reads arm isArm) done

end Plan

namespace Exec

theorem reads_drain (ctx : Context) (columns : List Str) (turns count : Nat) {x : Machine × Argument}
    (quiet : x.1.Quiet)
    : (drain ctx columns turns count x).Reads := by
  induction turns generalizing count x with
  | zero => exact reads_fail _
  | succ turns ih =>
    refine ReadsTo.bind (readsTo_step ctx x.1 quiet x.2) (fun r still => ?_)
    obtain ⟨t, y⟩ := r
    cases t with
    | again => exact ih count still
    | done => exact reads_ret _
    | row b =>
      refine reads_ite (ih count still) (reads_ite (reads_fail _) ?_)
      exact .bind (ih (count + 1) still) (fun _ => reads_ret _)

theorem reads_run (ctx : Context) {p : Plan.Op} (readOnly : p.readOnly = true) (columns : List Str) (turns : Nat)
    (c : Choices)
    : (run ctx p columns turns c).Reads :=
  ReadsTo.bind (readsTo_buildWith ctx p none c)
    (fun _ quiet => reads_drain ctx columns turns 0 (quiet readOnly))

variable {q : Query}

theorem viewQuery_eq (reads : ∀ arm ∈ arms q, arm.any isWriteClause = false) (refused : Err) (ctx : Context)
    (turns : Nat) (c : Choices) (s : Store)
    : viewQuery refused ctx q turns c s = query ctx q turns c s ∧ (query ctx q turns c s).2 = s := by
  unfold viewQuery query runQueryInView runQuery
  cases Sema.analyze q with
  | error e => exact ⟨rfl, rfl⟩
  | ok columns =>
    have first : isWriteQuery q = false := reads _ mem_cons_self
    simp only [first, Bool.false_eq_true, if_false]
    cases planned : plan q (planCatalog s) with
    | error e => exact ⟨rfl, rfl⟩
    | ok p =>
      have silent := reads_run ctx (readOnly_plan reads planned) columns turns c
      dsimp only
      rw [silent.view_eq refused]
      exact ⟨rfl, silent.still s⟩

theorem asWrite_route (write : isWriteQuery q = true) (cluster : Option ClusterBackend) (linearizable : Bool)
    : (route cluster linearizable q).AsWrite cluster := by
  cases cluster with
  | none =>
    refine .inr ⟨?_, fun _ => nofun⟩
    simp [route, write]
  | some cb =>
    obtain ⟨isLocal, isLeader⟩ := cb
    unfold route
    rw [write]
    cases isLocal <;> cases isLeader <;> cases linearizable <;> simp [Route.AsWrite]

/-- Nothing that `isWriteQuery` takes for a read writes, and whatever has a write clause runs as a write. -/
structure Classified (q : Query) : Prop where
  reads
    : isWriteQuery q = false → ∀ cat p, plan q cat = .ok p
      → p.readOnly = true ∧ ∀ ctx columns turns c, (run ctx p columns turns c).Reads
  viewed
    : isWriteQuery q = false → ∀ refused ctx turns c s,
      viewQuery refused ctx q turns c s = query ctx q turns c s ∧ (query ctx q turns c s).2 = s
  writes
    : (∃ arm ∈ arms q, arm.any isWriteClause = true) → isWriteQuery q = true
      ∧ (∀ cluster linearizable, (route cluster linearizable q).AsWrite cluster)
      ∧ ∀ refused ctx turns c s, viewQuery refused ctx q turns c s = (.error errReadOnlyTx, s)

/-- The classification is right exactly when a write clause in a later arm comes with one in the first. -/
theorem classified_iff {columns : List Str} (accepted : Sema.analyze q = .ok columns)
    : Classified q
      ↔ ((∃ u ∈ q.unions, u.clauses.any isWriteClause = true) → q.clauses.any isWriteClause = true) := by
  constructor
  · rintro classified ⟨u, member, writes⟩
    have isArm : u.clauses ∈ arms q := List.mem_cons_of_mem _ (List.mem_map_of_mem member)
    exact (classified.writes ⟨u.clauses, isArm, writes⟩).1
  · intro first
    have any : (∃ arm ∈ arms q, arm.any isWriteClause = true) → isWriteQuery q = true := by
      rintro ⟨arm, isArm, writes⟩
      obtain rfl | inUnion := List.mem_cons.mp isArm
      · exact writes
      · obtain ⟨u, member, rfl⟩ := List.mem_map.mp inUnion
        exact first ⟨u, member, writes⟩
    have quiet (read : isWriteQuery q = false) : ∀ arm ∈ arms q, arm.any isWriteClause = false := by
      intro arm isArm
      by_contra writes
      have write := any ⟨arm, isArm, Bool.eq_true_of_not_eq_false writes⟩
      rw [read] at write
      cases write
    refine ⟨fun read cat p planned => ?_, fun read refused ctx turns c s => ?_, fun writes => ?_⟩
    · have readOnly := readOnly_plan (quiet read) planned
      exact ⟨readOnly, fun ctx columns turns c => reads_run ctx readOnly columns turns c⟩
    · exact viewQuery_eq (quiet read) refused ctx turns c s
    · have write := any writes
      refine ⟨write, asWrite_route write, fun refused ctx turns c s => ?_⟩
      simp only [viewQuery, accepted, write, if_true]

/-- `RETURN 1 AS x UNION CREATE () RETURN 1 AS x`. -/
def returnUnionCreate : Query :=
  let one : Clause := .ofReturn ⟨false, false, [⟨.literal (.int 1), lit "x"⟩], [], none, none⟩
  ⟨[one], [⟨false, [.ofCreate [⟨[], ⟨[], [], .empty⟩, [], .notShortest⟩], one]⟩]⟩

theorem classified_return
    : Sema.analyze ⟨returnUnionCreate.clauses, []⟩ = .ok [lit "x"] ∧ Classified ⟨returnUnionCreate.clauses, []⟩ := by
  have accepted : Sema.analyze ⟨returnUnionCreate.clauses, []⟩ = .ok [lit "x"] := rfl
  refine ⟨accepted, (classified_iff accepted).mpr ?_⟩
  rintro ⟨u, member, _⟩
  cases member

theorem not_classified_union
    : Sema.analyze returnUnionCreate = .ok [lit "x"] ∧ isWriteQuery returnUnionCreate = false
      ∧ (query .bare returnUnionCreate 20 .ordered .empty).2 ≠ .empty
      ∧ (viewQuery Storage.errReadOnly .bare returnUnionCreate 20 .ordered .empty).1
        = .error (.because "query" Storage.errReadOnly)
      ∧ ¬ Classified returnUnionCreate := by
  refine ⟨rfl, rfl, ?_, rfl, fun classified => ?_⟩
  · intro kept
    have written : ((query .bare returnUnionCreate 20 .ordered .empty).2.entries.isEmpty) = false := rfl
    rw [kept] at written
    cases written
  · have writes := classified.writes ⟨_, List.mem_cons_of_mem _ List.mem_cons_self, rfl⟩
    cases writes.1

end Exec

end Intreccio
