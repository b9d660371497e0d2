import Intreccio.Foundation.SortBy

/-! Sorting the elements that pass a filter. If none of them overtakes another without being less than it, whatever
else is in the list, the sort commutes with the filter.
-/

namespace Kv.StableSort

open List

variable {α : Type} {lt : α → α → Bool} {l l' out : List α}

/-- A list is known from what it has of any two elements. -/
theorem eq_of_pairs [DecidableEq α] (length : l.length = l'.length)
    (pairs : ∀ x ∈ l, ∀ y ∈ l', l.filter (fun z => z = x ∨ z = y) = l'.filter (fun z => z = x ∨ z = y))
    : l = l' := by
  induction l generalizing l' with
  | nil => exact (length_eq_zero_iff.mp length.symm).symm
  | cons u l ih =>
    cases l' with
    | nil => cases length
    | cons v l' =>
      have same : u = v := by
        have here := pairs u mem_cons_self v mem_cons_self
        rw [filter_cons_of_pos (by simp), filter_cons_of_pos (by simp)] at here
        exact (List.cons.inj here).1
      subst same
      refine congrArg (u :: ·) (ih (Nat.succ.inj length) (fun x inLeft y inRight => ?_))
      have here := pairs x (mem_cons_of_mem _ inLeft) y (mem_cons_of_mem _ inRight)
      by_cases among : u = x ∨ u = y
      · rw [filter_cons_of_pos (by simpa using among), filter_cons_of_pos (by simpa using among)]
          at here
        exact (List.cons.inj here).2
      · rwa [filter_cons_of_neg (by simpa using among), filter_cons_of_neg (by simpa using among)]
          at here

/-- The elements of a predicate tie with each other. -/
def Tied (lt : α → α → Bool) (p : α → Bool) : Prop :=
  ∀ u v, p u = true → p v = true → u ≠ v → lt u v = false

/-- Two arrangements of the same elements are the same if both are in order and have elements that tie in
the same order.
-/
theorem eq_of_ordered {out' : List α} (perm : out.Perm out') (ordered : out.Pairwise (Follows lt))
    (ordered' : out'.Pairwise (Follows lt))
    (ties : ∀ p : α → Bool, (∀ u, p u = true → u ∈ out) → Tied lt p → out.filter p = out'.filter p)
    : out = out' := by
  classical
  refine eq_of_pairs perm.length_eq (fun x inLeft y inRight => ?_)
  have inLeft' : y ∈ out := perm.mem_iff.mpr inRight
  by_cases tied : lt x y = false ∧ lt y x = false
  · refine ties _ (fun u first => ?_) (fun u v first second other => ?_)
    · rcases of_decide_eq_true first with rfl | rfl
      · exact inLeft
      · exact inLeft'
    · rcases of_decide_eq_true first with rfl | rfl <;> rcases of_decide_eq_true second with rfl | rfl
      · exact absurd rfl other
      · exact tied.1
      · exact tied.2
      · exact absurd rfl other
  · refine List.Perm.eq_of_pairwise (fun u v first second follows follows' => ?_) (ordered.filter _)
      (ordered'.filter _) (perm.filter _)
    by_contra other
    refine tied ?_
    rcases of_decide_eq_true (mem_filter.mp first).2 with rfl | rfl <;>
      rcases of_decide_eq_true (mem_filter.mp second).2 with rfl | rfl
    · exact absurd rfl other
    · exact ⟨follows', follows⟩
    · exact ⟨follows, follows'⟩
    · exact absurd rfl other

/-- Among the elements that pass, none overtakes another that it is not less than. -/
def Settled (lt : α → α → Bool) (p : α → Bool) : Prop :=
  ∀ x y, p x = true → p y = true → x ≠ y → Overtakes lt y x → lt y x = true

section Filters

variable (asymm : ∀ x y, lt x y = true → lt y x = false) {p : α → Bool}

include asymm

theorem Settled.not_leads (settled : Settled lt p) {x y : α} (good : p x = true) (good' : p y = true)
    (less : lt x y = true)
    : ¬ Leads lt y x := by
  intro leads
  have other : y ≠ x := by
    rintro rfl
    exact Bool.false_ne_true ((asymm y y less).symm.trans less)
  have back := settled x y good good' other.symm ⟨x, y, leads, less, leads⟩
  rw [asymm x y less] at back
  cases back

theorem Settled.ordered (settled : Settled lt p) (arranges : Arranges lt l out)
    : (out.filter p).Pairwise (Follows lt) := by
  refine pairwise_filter.mpr ((leads_of_chain (arranges.chain asymm)).imp fun leads good good' => ?_)
  exact Bool.eq_false_iff.mpr fun less => settled.not_leads asymm good' good less leads

theorem Settled.ties (settled : Settled lt p) (arranges : Arranges lt l out) {p' : α → Bool}
    (passes : ∀ u, p' u = true → p u = true) (tied : Tied lt p')
    : out.filter p' = l.filter p' :=
  arranges.filter asymm (fun u v first second other overtakes => Bool.false_ne_true
    ((tied v u second first other.symm).symm.trans
      (settled u v (passes u first) (passes v second) other overtakes)))

/-- The sort commutes with a filter of settled elements. -/
theorem Settled.sortBy_filter (settled : Settled lt p) (l : List α)
    : sortBy lt (l.filter p) = (sortBy lt l).filter p := by
  have arranges := sortBy_arranges lt (l.filter p)
  have arranges' := sortBy_arranges lt l
  have passes {z : α} (member : z ∈ sortBy lt (l.filter p)) : p z = true :=
    (mem_filter.mp (arranges.perm.mem_iff.mp member)).2
  have ordered := settled.ordered asymm arranges
  rw [filter_eq_self.mpr (fun z => passes)] at ordered
  refine eq_of_ordered (arranges.perm.trans (arranges'.perm.filter p).symm) ordered
    (settled.ordered asymm arranges') (fun p' within tied => ?_)
  have passes' (u : α) (good : p' u = true) : p u = true := passes (within u good)
  rw [settled.ties asymm arranges passes' tied, filter_comm, filter_comm _ p,
    settled.ties asymm arranges' passes' tied]

end Filters

end Kv.StableSort
