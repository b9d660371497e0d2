import Intreccio.Exec.Reading
import Intreccio.Graph.EqualityLookups

/-! Property scans of the executor (`internal/exec/exec.go`): the nodes that an equality seek lists
are those whose value equals the sought one in the sense of the language.
-/

namespace Intreccio.Exec

open Kv Kv.Program Words Codec Graph Ast

variable {s : Store}

theorem equality_normalize (a b : Val) : equality a (normalize b) = equality a b := by
  cases b with
  | goInt i => cases a <;> simp [equality, Graph.normalize, queryEqual, isNull]
  | _ => rfl

theorem equals_normalize (a b : Val) : equals a (normalize b) = equals a b := by
  rw [equals, equals, equality_normalize]

theorem isNull_normalize (v : Val) : isNull (normalize v) = isNull v := by
  cases v <;> rfl

/-- Next to a scalar, equality is the one of the graph layer. -/
theorem equals_scalar (a : Val) (d : Scalar) : equals a d.toVal = queryEqual a d.toVal := by
  cases a <;> cases d <;> simp [equals, equality, queryEqual, Graph.normalize, Scalar.toVal, isNull]

theorem run_seekIDs {label key : Str} {l k : UInt32}
    (labelled : (Catalog.lookupLabel label).read s = .ok (some l))
    (named : (Catalog.lookupKey key).read s = .ok (some k))
    : (seekIDs Catalog.lookupLabel label key).run s = (.ok (some (l, k)), s) := by
  have first := (Catalog.reads_lookupLabel label).run_eq (m := s)
  have second := (Catalog.reads_lookupKey key).run_eq (m := s)
  rw [labelled] at first
  rw [named] at second
  simp only [seekIDs, bind_eq, pure_eq]
  rw [run_bind_of_ok first]
  simp only
  rw [run_bind_of_ok second]
  rfl

theorem run_propertyScanIDs (keyed : WellKeyed s) (consistent : IndexConsistent s) {ctx : Context}
    {label key : Str} {e : Expr} {row : Row} {c : Choices} {l k : UInt32} {v : Val}
    (labelled : (Catalog.lookupLabel label).read s = .ok (some l))
    (named : (Catalog.lookupKey key).read s = .ok (some k))
    (evaluated : (eval ctx e row c).read s = .ok v) (nonnull : isNull v = false)
    : ∃ ids, (propertyScanIDs ctx label key e row c).run s = (.ok ids, s)
      ∧ Lists ids (fun n => ∃ w, NodeHolds s l k n w ∧ equals w v = true) := by
  have value := (reads_eval ctx e row c).run_eq (m := s)
  rw [evaluated] at value
  simp only [propertyScanIDs, bind_eq, pure_eq]
  rw [run_bind_of_ok (run_seekIDs labelled named)]
  simp only
  rw [run_bind_of_ok value, if_neg (by rw [isNull_normalize, nonnull]; exact Bool.false_ne_true)]
  by_cases indexable : isIndexable (normalize v) = true
  · obtain ⟨d, scalar⟩ := isIndexable_iff.mp indexable
    have present : d ≠ .null := by
      rintro rfl
      rw [← isNull_normalize, scalar] at nonnull
      cases nonnull
    have same (w : Val) : equals w v = queryEqual w d.toVal := by
      rw [← equals_normalize, scalar, equals_scalar]
    rw [if_pos indexable, scalar]
    simp only [same]
    exact run_nodesByProperty keyed consistent l k present
  · have scan := run_labelScan keyed consistent l k (equals · (normalize v))
    simp only [equals_normalize] at scan
    rw [if_neg indexable]
    simpa only [nodesWithEqualProperty, bind_eq, equals_normalize] using scan

/-- Equality lookups are exact: on nodes, on relationships and in seeks, with an index and without
one, they list in ID order the owners of equal values; and the path through the index gives the
list of the path without it.
-/
theorem equality_lookups_exact (keyed : WellKeyed s) (consistent : IndexConsistent s)
    : (∀ (l k : UInt32) (d : Scalar), d ≠ .null → ∃ ids,
        (nodesByProperty l k d.toVal).run s = (.ok ids, s)
        ∧ Lists ids (fun n => ∃ v, NodeHolds s l k n v ∧ queryEqual v d.toVal = true)
        ∧ ((nodesByLabel l).bind (nodesWhere k (queryEqual · d.toVal))).run s = (.ok ids, s))
      ∧ (∀ (t k : UInt32) (d : Scalar), d ≠ .null → ∃ ids,
        (edgesByProperty t k d.toVal).run s = (.ok ids, s)
        ∧ Lists ids (fun e => ∃ v, EdgeHolds s t k e v ∧ queryEqual v d.toVal = true)
        ∧ (edgesWhere t k (queryEqual · d.toVal)).run s = (.ok ids, s))
      ∧ (∀ (ctx : Context) (label key : Str) (e : Expr) (row : Row) (c : Choices) (l k : UInt32)
          (v : Val),
        (Catalog.lookupLabel label).read s = .ok (some l)
        → (Catalog.lookupKey key).read s = .ok (some k)
        → (eval ctx e row c).read s = .ok v → isNull v = false → ∃ ids,
          (propertyScanIDs ctx label key e row c).run s = (.ok ids, s)
          ∧ Lists ids (fun n => ∃ w, NodeHolds s l k n w ∧ equals w v = true)
          ∧ ((nodesByLabel l).bind (nodesWhere k (equals · v))).run s = (.ok ids, s)) := by
  refine ⟨fun l k d present => ?_, fun t k d present => ?_,
    fun ctx label key e row c l k v labelled named evaluated nonnull => ?_⟩
  · obtain ⟨ids, ran, listed⟩ := run_nodesByProperty keyed consistent l k present
    obtain ⟨ids', ran', listed'⟩ := run_labelScan keyed consistent l k (queryEqual · d.toVal)
    exact ⟨ids, ran, listed, listed.unique listed' ▸ ran'⟩
  · obtain ⟨ids, ran, listed⟩ := run_edgesByProperty keyed consistent t k present
    obtain ⟨ids', ran', listed'⟩ := run_edgesWhere keyed consistent t k (queryEqual · d.toVal)
    exact ⟨ids, ran, listed, listed.unique listed' ▸ ran'⟩
  · obtain ⟨ids, ran, listed⟩ :=
      run_propertyScanIDs keyed consistent labelled named evaluated nonnull
    obtain ⟨ids', ran', listed'⟩ := run_labelScan keyed consistent l k (equals · v)
    exact ⟨ids, ran, listed, listed.unique listed' ▸ ran'⟩

/-- The first transaction's node is found through its index. -/
theorem equality_lookups_exact_founded
    : WellKeyed founded ∧ IndexConsistent founded
      ∧ ∃ ids, (nodesByProperty 1 1 (.int 5)).run founded = (.ok ids, founded)
        ∧ Lists ids (fun n => ∃ v, NodeHolds founded 1 1 n v ∧ queryEqual v (.int 5) = true) := by
  have sound := ((reached_founded guarded_founding).sound (fun _ => Op.Permitted.respects)
    few_founded).2
  obtain ⟨ids, ran, listed, _⟩ :=
    (equality_lookups_exact sound.nodes.keyed sound.index).1 1 1 (.int 5) (by decide)
  exact ⟨sound.nodes.keyed, sound.index, ids, ran, listed⟩

end Intreccio.Exec
