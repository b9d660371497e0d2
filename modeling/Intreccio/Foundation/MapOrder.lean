import Mathlib.Data.List.Sort

/-! Iteration over a map whose order is not specified: each loop may visit the entries in any
order, and two loops over the same map need not agree.
-/

namespace Kv

/-- One choice of iteration orders: at each loop, a rank for every position. -/
structure MapOrder where
  rank : List Nat → Nat → Nat

namespace MapOrder

variable {α : Type}

/-- The order in which this loop visits `entries`. -/
def range (o : MapOrder) (entries : List α) : List α :=
  (entries.zipIdx.insertionSort (fun a b => o.rank [] a.2 ≤ o.rank [] b.2)).map Prod.fst

/-- The choices of the loops inside part `i`. -/
def sub (o : MapOrder) (i : Nat) : MapOrder := ⟨fun site => o.rank (i :: site)⟩

/-- Every entry is visited exactly once. -/
theorem range_perm (o : MapOrder) (entries : List α) : (o.range entries).Perm entries := by
  have visited := (List.perm_insertionSort
    (fun a b => o.rank [] a.2 ≤ o.rank [] b.2) entries.zipIdx).map Prod.fst
  rwa [List.zipIdx_map_fst] at visited

@[simp] theorem mem_range {o : MapOrder} {entries : List α} {a : α} : a ∈ o.range entries ↔ a ∈ entries :=
  (o.range_perm entries).mem_iff

end MapOrder

end Kv
