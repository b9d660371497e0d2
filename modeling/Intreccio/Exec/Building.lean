import Intreccio.Exec.Operators

/-! The machine of a plan: building it changes nothing, and for a read-only plan the rows it has to
yield are those the plan denotes.
The Argument leaves of an inner plan share one row, and the first of them to be read takes it. A
plan is linear when each of its inner plans has at most one such leaf.
-/

namespace Intreccio

open Kv Words Graph Ast Plan Program Pull List

namespace Plan

mutual
def Op.readOnly (p : Plan.Op) : Bool :=
  match p with
  | .nil | .allNodesScan _ | .nodeByLabelScan _ _ | .nodeByProperty _ _ _ _ | .nodeByPropertyRange _
  | .relByProperty _ | .argument | .showIndexes | .showConstraints => true
  | .expand input _ | .shortestPath input _ | .filter input _ | .project input _ _
  | .aggregate input _ _ _ | .sort input _ | .skip input _ | .limit input _ | .unwind input _ _ =>
    input.readOnly
  | .cartesianProduct left right => left.readOnly && right.readOnly
  | .outerApply outer inner _ | .apply outer inner => outer.readOnly && inner.readOnly
  | .union parts _ _ => allReadOnly parts
  | .create _ _ | .merge _ _ | .setItems _ _ | .remove _ _ | .delete _ _ _ => false
  | .createIndex _ | .dropIndex _ _ | .createConstraint _ _ _ | .dropConstraint _ _ => false
termination_by structural p

def allReadOnly (l : List Plan.Op) : Bool :=
  match l with
  | [] => true
  | p :: rest => p.readOnly && allReadOnly rest
termination_by structural l
end

mutual
/-- The number of Argument leaves, those of inner plans apart. -/
def Op.leaves (p : Plan.Op) : Nat :=
  match p with
  | .argument => 1
  | .nil | .allNodesScan _ | .nodeByLabelScan _ _ | .nodeByProperty _ _ _ _ | .nodeByPropertyRange _
  | .relByProperty _ | .showIndexes | .showConstraints => 0
  | .expand input _ | .shortestPath input _ | .filter input _ | .project input _ _
  | .aggregate input _ _ _ | .sort input _ | .skip input _ | .limit input _ | .unwind input _ _ =>
    input.leaves
  | .cartesianProduct left right => left.leaves + right.leaves
  | .outerApply outer _ _ | .apply outer _ => outer.leaves
  | .union parts _ _ => allLeaves parts
  | .create input _ | .merge input _ | .setItems input _ | .remove input _ | .delete input _ _ =>
    input.leaves
  | .createIndex _ | .dropIndex _ _ | .createConstraint _ _ _ | .dropConstraint _ _ => 0
termination_by structural p

def allLeaves (l : List Plan.Op) : Nat :=
  match l with
  | [] => 0
  | p :: rest => p.leaves + allLeaves rest
termination_by structural l
end

mutual
/-- Each inner plan has at most one Argument leaf. -/
def Op.linear (p : Plan.Op) : Bool :=
  match p with
  | .nil | .allNodesScan _ | .nodeByLabelScan _ _ | .nodeByProperty _ _ _ _ | .nodeByPropertyRange _
  | .relByProperty _ | .argument | .showIndexes | .showConstraints => true
  | .expand input _ | .shortestPath input _ | .filter input _ | .project input _ _
  | .aggregate input _ _ _ | .sort input _ | .skip input _ | .limit input _ | .unwind input _ _ =>
    input.linear
  | .cartesianProduct left right => left.linear && right.linear
  | .outerApply outer inner _ | .apply outer inner =>
    outer.linear && inner.linear && inner.leaves ≤ 1
  | .union parts _ _ => allLinear parts
  | .create input _ | .merge input _ | .setItems input _ | .remove input _ | .delete input _ _ =>
    input.linear
  | .createIndex _ | .dropIndex _ _ | .createConstraint _ _ _ | .dropConstraint _ _ => true
termination_by structural p

def allLinear (l : List Plan.Op) : Bool :=
  match l with
  | [] => true
  | p :: rest => p.linear && allLinear rest
termination_by structural l
end

end Plan

namespace Exec

mutual
def Machine.leaves (m : Machine) : Nat :=
  match m with
  | .argument => 1
  | .source _ => 0
  | .unary input _ => input.leaves
  | .cartesian left right _ _ _ => left.leaves + right.leaves
  | .apply outer _ _ _ _ _ _ _ _ _ => outer.leaves
  | .union parts _ _ _ => machineLeaves parts
termination_by structural m

def machineLeaves (l : List Machine) : Nat :=
  match l with
  | [] => 0
  | m :: rest => m.leaves + machineLeaves rest
termination_by structural l
end

mutual
/-- The machine does not write, and its inner machines have at most one Argument leaf. -/
def Machine.Reading (m : Machine) : Prop :=
  match m with
  | .argument => True
  | .source src => src.reading = true
  | .unary input u => input.Reading ∧ u.Reading
  | .cartesian left right _ _ _ => left.Reading ∧ right.Reading
  | .apply outer plan _ _ _ inner _ _ _ _ =>
    outer.Reading ∧ (inner.Reading ∧ inner.leaves ≤ 1)
      ∧ plan.readOnly = true ∧ plan.linear = true ∧ plan.leaves ≤ 1
  | .union parts _ _ _ => AllReading parts
termination_by structural m

def AllReading (l : List Machine) : Prop :=
  match l with
  | [] => True
  | m :: rest => m.Reading ∧ AllReading rest
termination_by structural l
end

mutual
/-- The machine does not write, and neither do the machines it will build. -/
def Machine.Quiet (m : Machine) : Prop :=
  match m with
  | .argument => True
  | .source src => src.reading = true
  | .unary input u => input.Quiet ∧ u.Reading
  | .cartesian left right _ _ _ => left.Quiet ∧ right.Quiet
  | .apply outer plan _ _ _ inner _ _ _ _ => outer.Quiet ∧ inner.Quiet ∧ plan.readOnly = true
  | .union parts _ _ _ => AllQuiet parts
termination_by structural m

def AllQuiet (l : List Machine) : Prop :=
  match l with
  | [] => True
  | m :: rest => m.Quiet ∧ AllQuiet rest
termination_by structural l
end

mutual
theorem Machine.Reading.quiet {m : Machine} (reading : m.Reading) : m.Quiet := by
  match m with
  | .argument => exact trivial
  | .source src => exact reading
  | .unary input u => exact ⟨Machine.Reading.quiet reading.1, reading.2⟩
  | .cartesian left right _ _ _ => exact ⟨Machine.Reading.quiet reading.1, Machine.Reading.quiet reading.2⟩
  | .apply outer plan _ _ _ inner _ _ _ _ =>
    exact ⟨Machine.Reading.quiet reading.1, Machine.Reading.quiet reading.2.1.1, reading.2.2.1⟩
  | .union parts _ _ _ => exact AllReading.allQuiet reading

theorem AllReading.allQuiet {l : List Machine} (reading : AllReading l) : AllQuiet l := by
  match l with
  | [] => exact trivial
  | m :: rest => exact ⟨Machine.Reading.quiet reading.1, AllReading.allQuiet reading.2⟩
end

mutual
/-- Building only reads, and a plan that does not write gives a machine that does not write. -/
theorem readsTo_buildWith (ctx : Context) (p : Plan.Op) (arg : Option Row) (c : Choices)
    : (buildWith ctx p arg c).ReadsTo (fun m => p.readOnly = true → m.Quiet) := by
  match p with
  | .nil | .showIndexes | .showConstraints => exact fun _ => rfl
  | .argument =>
    cases arg with
    | none => exact trivial
    | some b => exact fun _ => trivial
  | .allNodesScan var => exact .bind reads_scanAllNodes (fun _ _ _ => rfl)
  | .nodeByLabelScan var label =>
    refine .bind (Catalog.reads_lookupLabel _) (fun id _ => ?_)
    cases id with
    | none => exact fun _ => rfl
    | some id => exact .bind (reads_scanLabel _) (fun _ _ _ => rfl)
  | .nodeByPropertyRange x => exact .bind (reads_propertyRangeScan _ _ _ _) (fun _ _ _ => rfl)
  | .nodeByProperty var label key value =>
    exact .bind (reads_propertyScanIDs _ _ _ _ _ _) (fun _ _ _ => rfl)
  | .relByProperty x => exact .bind (reads_relSeekIDs _ _ _ _) (fun _ _ _ => rfl)
  | .expand input x =>
    refine .bind (readsTo_buildWith ctx input _ _) (fun m quiet => ?_)
    refine .bind (reads_lookupTypes _) (fun _ _ readOnly =>
      ⟨quiet readOnly, ?_, fun _ member => absurd member not_mem_nil⟩)
    split <;> rfl
  | .shortestPath input x =>
    refine .bind (readsTo_buildWith ctx input _ _) (fun m quiet => ?_)
    exact .bind (reads_pathSpec _) (fun _ _ readOnly =>
      ⟨quiet readOnly, rfl, fun _ member => absurd member not_mem_nil⟩)
  | .unwind input _ _ =>
    exact .bind (readsTo_buildWith ctx input _ _) (fun m quiet readOnly =>
      ⟨quiet readOnly, rfl, fun _ member => absurd member not_mem_nil⟩)
  | .filter input _ | .project input _ _ | .aggregate input _ _ _ | .sort input _ =>
    exact .bind (readsTo_buildWith ctx input _ _) (fun m quiet readOnly => ⟨quiet readOnly, trivial⟩)
  | .skip input count | .limit input count =>
    refine .bind (readsTo_buildWith ctx input _ _) (fun m quiet => ?_)
    exact .bind (reads_evalCount _ _ _) (fun _ _ readOnly => ⟨quiet readOnly, trivial⟩)
  | .outerApply outer inner _ | .apply outer inner =>
    refine .bind (readsTo_buildWith ctx outer _ _) (fun m quiet readOnly => ?_)
    have both := Bool.and_eq_true_iff.mp readOnly
    exact ⟨quiet both.1, rfl, both.2⟩
  | .cartesianProduct left right =>
    refine .bind (readsTo_buildWith ctx left _ _) (fun l quiet => ?_)
    refine .bind (readsTo_buildWith ctx right _ _) (fun r quiet' readOnly => ?_)
    have both := Bool.and_eq_true_iff.mp readOnly
    exact ⟨quiet both.1, quiet' both.2⟩
  | .union parts columns all => exact .bind (readsTo_buildAll ctx parts _ _) (fun ms quiet => quiet)
  | .create input _ | .merge input _ | .setItems input _ | .remove input _ | .delete input _ _ =>
    exact .bind (readsTo_buildWith ctx input _ _) (fun _ _ writes => by cases writes)
  | .createIndex _ | .dropIndex _ _ | .createConstraint _ _ _ | .dropConstraint _ _ =>
    exact fun writes => by cases writes

theorem readsTo_buildAll (ctx : Context) (l : List Plan.Op) (arg : Option Row) (c : Choices)
    : (buildAll ctx l arg c).ReadsTo (fun ms => allReadOnly l = true → AllQuiet ms) := by
  match l with
  | [] => exact fun _ => trivial
  | p :: rest =>
    refine .bind (readsTo_buildWith ctx p _ _) (fun m quiet => ?_)
    refine .bind (readsTo_buildAll ctx rest _ _) (fun ms quiet' readOnly => ?_)
    have both := Bool.and_eq_true_iff.mp readOnly
    exact ⟨quiet both.1, quiet' both.2⟩
end

theorem reads_buildWith (ctx : Context) (p : Plan.Op) (arg : Option Row) (c : Choices)
    : (buildWith ctx p arg c).Reads :=
  (readsTo_buildWith ctx p arg c).reads

theorem reads_buildAll (ctx : Context) (l : List Plan.Op) (arg : Option Row) (c : Choices)
    : (buildAll ctx l arg c).Reads :=
  (readsTo_buildAll ctx l arg c).reads

section Built

variable (ctx : Context) (s : Store)

/-- The machine of a plan inside an apply with a row has that row to yield at its Argument leaf. -/
structure Built (p : Plan.Op) (arg : Option Row) (c : Choices) (m : Machine) : Prop where
  reading : m.Reading
  leaves : m.leaves ≤ p.leaves
  free : arg = none → m.leaves = 0
  rows : ∀ a : Argument, (∀ b, arg = some b → a = ⟨b, false⟩) → remaining ctx s m a = denote ctx s p arg c

structure BuiltAll (l : List Plan.Op) (arg : Option Row) (c : Choices) (ms : List Machine) : Prop where
  reading : AllReading ms
  leaves : machineLeaves ms ≤ allLeaves l
  free : arg = none → machineLeaves ms = 0
  rows : ∀ a : Argument, (∀ b, arg = some b → a = ⟨b, false⟩)
    → remainingAll ctx s ms a = denoteAll ctx s l arg c

/-- The machines that read-only plans are built to. -/
inductive Opened : Machine → Prop
  | source {src : Source} (reading : src.reading = true) : Opened (.source src)
  | argument : Opened .argument
  | unary {m : Machine} {u : Unary} (input : Opened m) : Opened (.unary m u)
  | cartesian {l r : Machine} (left : Opened l) (right : Opened r) : Opened (.cartesian l r [] false none)
  | apply {m : Machine} {inner : Plan.Op} {newVars : Option (List Str)} {ch : Choices} (outer : Opened m)
      (reading : inner.readOnly = true) (linear : inner.linear = true) (once : inner.leaves ≤ 1)
      (below : ∀ b c m, (buildWith ctx inner (some b) c).read s = .ok m → Opened m)
    : Opened (.openApply m inner newVars ch)
  | union {ms : List Machine} {columns : List Str} {dedup : Bool} {seen : List Str}
      (parts : ∀ m ∈ ms, Opened m)
    : Opened (.union ms columns dedup seen)

structure Founded (p : Plan.Op) (arg : Option Row) (c : Choices) (m : Machine) : Prop
    extends Built ctx s p arg c m where
  opened : Opened ctx s m

variable {ctx s} {p input : Plan.Op} {arg : Option Row} {c c' : Choices} {m : Machine}

theorem Founded.source {src : Source} (reading : src.reading = true)
    (rows : src.rows s = denote ctx s p arg c)
    : Founded ctx s p arg c (.source src) where
  reading := reading
  leaves := Nat.zero_le _
  free := fun _ => rfl
  rows := fun _ _ => rows
  opened := .source reading

theorem Founded.unary {u : Unary} (built : Founded ctx s input arg c' m) (leaves : p.leaves = input.leaves)
    (reading : u.Reading) (rows : u.rows ctx s (denote ctx s input arg c') = denote ctx s p arg c)
    : Founded ctx s p arg c (.unary m u) where
  reading := ⟨built.reading, reading⟩
  leaves := leaves ▸ built.leaves
  free := built.free
  rows := fun a held => by
    rw [← rows, ← built.rows a held]
    rfl
  opened := .unary built.opened

theorem Founded.apply {outer inner : Plan.Op} {newVars : Option (List Str)} (built : Founded ctx s outer arg c' m)
    (leaves : p.leaves = outer.leaves) (reading : inner.readOnly = true) (linear : inner.linear = true)
    (once : inner.leaves ≤ 1) (below : ∀ b c m, (buildWith ctx inner (some b) c).read s = .ok m → Opened ctx s m)
    {ch : Choices}
    (rows : along (fun b c => joined newVars b (denote ctx s inner (some b) c))
      (denote ctx s outer arg c') ch = denote ctx s p arg c)
    : Founded ctx s p arg c (.openApply m inner newVars ch) where
  reading := ⟨built.reading, ⟨rfl, Nat.zero_le _⟩, reading, linear, once⟩
  leaves := leaves ▸ built.leaves
  free := built.free
  rows := fun a held => by
    rw [← rows, ← built.rows a held]
    rfl
  opened := .apply built.opened reading linear once below

mutual
theorem built (p : Plan.Op) {arg : Option Row} {c : Choices} {m : Machine} (reading : p.readOnly = true)
    (linear : p.linear = true) (ran : (buildWith ctx p arg c).read s = .ok m)
    : Founded ctx s p arg c m := by
  match p with
  | .nil =>
    cases ran
    exact .source rfl rfl
  | .argument =>
    cases arg with
    | none => cases ran
    | some b =>
      cases ran
      refine ⟨⟨trivial, Nat.le_refl _, nofun, fun a held => ?_⟩, .argument⟩
      rw [held b rfl]
      rfl
  | .allNodesScan var =>
    cases ran
    exact .source rfl rfl
  | .nodeByLabelScan var label =>
    obtain ⟨id, found, ran⟩ := (read_bind_ok (Catalog.reads_lookupLabel _)).mp ran
    cases id with
    | none | some id =>
      cases ran
      refine .source rfl ?_
      simp [denote, labelRows, answer_of_read found]
      rfl
  | .nodeByPropertyRange x =>
    obtain ⟨source, found, ran⟩ := (read_bind_ok (reads_propertyRangeScan _ _ _ _)).mp ran
    cases ran
    refine .source rfl ?_
    simp [Source.rows, denote, answer_of_read found]
  | .nodeByProperty var label key value =>
    obtain ⟨ids, found, ran⟩ := (read_bind_ok (reads_propertyScanIDs _ _ _ _ _ _)).mp ran
    cases ran
    refine .source rfl ?_
    simp [Source.rows, denote, answer_of_read found]
  | .relByProperty x =>
    obtain ⟨ids, found, ran⟩ := (read_bind_ok (reads_relSeekIDs _ _ _ _)).mp ran
    cases ran
    refine .source rfl ?_
    simp [Source.rows, denote, answer_of_read found]
  | .expand input x =>
    obtain ⟨m, first, ran⟩ := (read_bind_ok (reads_buildWith ctx input _ _)).mp ran
    obtain ⟨typeIDs, found, ran⟩ := (read_bind_ok (reads_lookupTypes _)).mp ran
    cases ran
    refine .unary (built input reading linear first) rfl ⟨?_, by simp⟩ ?_
    · split <;> rfl
    · simp [denote, Unary.rows, pendingRows, expandKind, answer_of_read found]
  | .shortestPath input x =>
    obtain ⟨m, first, ran⟩ := (read_bind_ok (reads_buildWith ctx input _ _)).mp ran
    obtain ⟨spec, found, ran⟩ := (read_bind_ok (reads_pathSpec _)).mp ran
    cases ran
    refine .unary (built input reading linear first) rfl ⟨rfl, by simp⟩ ?_
    simp [denote, Unary.rows, pendingRows, answer_of_read found]
  | .filter input _ | .project input _ _ | .aggregate input _ _ _ | .sort input _ =>
    obtain ⟨m, first, ran⟩ := (read_bind_ok (reads_buildWith ctx input _ _)).mp ran
    cases ran
    exact .unary (built input reading linear first) rfl trivial rfl
  | .unwind input _ _ =>
    obtain ⟨m, first, ran⟩ := (read_bind_ok (reads_buildWith ctx input _ _)).mp ran
    cases ran
    exact .unary (built input reading linear first) rfl ⟨rfl, by simp⟩ rfl
  | .skip input count | .limit input count =>
    obtain ⟨m, first, ran⟩ := (read_bind_ok (reads_buildWith ctx input _ _)).mp ran
    obtain ⟨n, found, ran⟩ := (read_bind_ok (reads_evalCount _ _ _)).mp ran
    cases ran
    refine .unary (built input reading linear first) rfl trivial ?_
    simp [denote, Unary.rows, countOn, answer_of_read found]
  | .cartesianProduct left right =>
    obtain ⟨onLeft, onRight⟩ := Bool.and_eq_true_iff.mp reading
    obtain ⟨linLeft, linRight⟩ := Bool.and_eq_true_iff.mp linear
    obtain ⟨l, first, ran⟩ := (read_bind_ok (reads_buildWith ctx left _ _)).mp ran
    obtain ⟨r, second, ran⟩ := (read_bind_ok (reads_buildWith ctx right _ _)).mp ran
    cases ran
    have builtLeft := built left onLeft linLeft first
    have builtRight := built right onRight linRight second
    refine ⟨⟨⟨builtLeft.reading, builtRight.reading⟩,
      Nat.add_le_add builtLeft.leaves builtRight.leaves, fun outside => ?_, fun a held => ?_⟩,
      .cartesian builtLeft.opened builtRight.opened⟩
    · simp [Machine.leaves, builtLeft.free outside, builtRight.free outside]
    · simp [remaining, denote, builtLeft.rows a held, builtRight.rows a held]
  | .outerApply outer inner _ | .apply outer inner =>
    obtain ⟨onOuter, onInner⟩ := Bool.and_eq_true_iff.mp reading
    simp only [Plan.Op.linear, Bool.and_eq_true, decide_eq_true_eq] at linear
    obtain ⟨m, first, ran⟩ := (read_bind_ok (reads_buildWith ctx outer _ _)).mp ran
    cases ran
    have below (b : Row) (c : Choices) (m : Machine) (found : (buildWith ctx inner (some b) c).read s = .ok m)
        : Opened ctx s m := (built inner onInner linear.1.2 found).opened
    refine .apply (built outer onOuter linear.1.1 first) ?_ onInner linear.1.2 linear.2 below ?_
    · rfl
    · rfl
  | .union parts columns all =>
    obtain ⟨ms, found, ran⟩ := (read_bind_ok (reads_buildAll ctx parts _ _)).mp ran
    cases ran
    have builtParts := builtAll parts reading linear found
    refine ⟨⟨builtParts.1.reading, builtParts.1.leaves, builtParts.1.free, fun a held => ?_⟩, .union builtParts.2⟩
    simp [remaining, denote, builtParts.1.rows a held]
  | .showIndexes | .showConstraints =>
    cases ran
    exact .source rfl rfl
  | .create _ _ | .merge _ _ | .setItems _ _ | .remove _ _ | .delete _ _ _ => cases reading
  | .createIndex _ | .dropIndex _ _ | .createConstraint _ _ _ | .dropConstraint _ _ => cases reading

theorem builtAll (l : List Plan.Op) {arg : Option Row} {c : Choices} {ms : List Machine}
    (reading : allReadOnly l = true) (linear : allLinear l = true)
    (ran : (buildAll ctx l arg c).read s = .ok ms)
    : BuiltAll ctx s l arg c ms ∧ ∀ m ∈ ms, Opened ctx s m := by
  match l with
  | [] =>
    cases ran
    exact ⟨⟨trivial, Nat.le_refl _, fun _ => rfl, fun _ _ => rfl⟩, nofun⟩
  | p :: rest =>
    obtain ⟨onFirst, onRest⟩ := Bool.and_eq_true_iff.mp reading
    obtain ⟨linFirst, linRest⟩ := Bool.and_eq_true_iff.mp linear
    obtain ⟨m, found, ran⟩ := (read_bind_ok (reads_buildWith ctx p _ _)).mp ran
    obtain ⟨more, others, ran⟩ := (read_bind_ok (reads_buildAll ctx rest _ _)).mp ran
    cases ran
    have builtFirst := built p onFirst linFirst found
    obtain ⟨builtRest, opened⟩ := builtAll rest onRest linRest others
    refine ⟨⟨⟨builtFirst.reading, builtRest.reading⟩,
      Nat.add_le_add builtFirst.leaves builtRest.leaves, fun outside => ?_, fun a held => ?_⟩,
      forall_mem_cons.mpr ⟨builtFirst.opened, opened⟩⟩
    · simp [machineLeaves, builtFirst.free outside, builtRest.free outside]
    · simp [remainingAll, denoteAll, builtFirst.rows a held, builtRest.rows a held]
end

end Built

end Exec

end Intreccio
