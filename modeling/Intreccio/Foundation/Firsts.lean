import Mathlib.Data.List.Basic

/-! The first elements of a list with each key. -/

namespace Kv

open List

variable {α κ : Type} [DecidableEq κ] {key : α → κ} {seen : List κ} {l : List α} {x : α}

/-- The elements whose key is new: neither among those seen before nor that of an earlier element. -/
def firsts (key : α → κ) : List κ → List α → List α
  | _, [] => []
  | seen, x :: l => if key x ∈ seen then firsts key seen l else x :: firsts key (key x :: seen) l

theorem firsts_cons_of_mem (known : key x ∈ seen) : firsts key seen (x :: l) = firsts key seen l :=
  if_pos known

theorem firsts_cons_of_not_mem (fresh : key x ∉ seen)
    : firsts key seen (x :: l) = x :: firsts key (key x :: seen) l :=
  if_neg fresh

theorem firsts_snoc (key : α → κ) (seen : List κ) (l : List α) (x : α)
    : firsts key seen (l ++ [x])
      = firsts key seen l ++ if key x ∈ seen ∨ key x ∈ l.map key then [] else [x] := by
  induction l generalizing seen with
  | nil => by_cases known : key x ∈ seen <;> simp [firsts, known]
  | cons y rest ih =>
    rw [cons_append, map_cons]
    by_cases known : key y ∈ seen
    · have same : key x ∈ seen ∨ key x ∈ key y :: rest.map key ↔ key x ∈ seen ∨ key x ∈ rest.map key := by
        constructor
        · rintro (old | here)
          · exact .inl old
          · obtain here | later := mem_cons.mp here
            · exact .inl (here ▸ known)
            · exact .inr later
        · exact Or.imp_right (mem_cons_of_mem _)
      rw [firsts_cons_of_mem known, firsts_cons_of_mem known, ih]
      simp only [same]
    · rw [firsts_cons_of_not_mem known, firsts_cons_of_not_mem known, ih, cons_append]
      simp only [mem_cons, or_assoc, or_left_comm]

theorem firsts_sublist (key : α → κ) (seen : List κ) (l : List α) : (firsts key seen l).Sublist l := by
  induction l generalizing seen with
  | nil => exact List.Sublist.refl _
  | cons y rest ih =>
    by_cases known : key y ∈ seen
    · rw [firsts_cons_of_mem known]
      exact (ih seen).cons y
    · rw [firsts_cons_of_not_mem known]
      exact (ih _).cons_cons y

theorem key_not_mem_of_mem_firsts (member : x ∈ firsts key seen l) : key x ∉ seen := by
  induction l generalizing seen with
  | nil => cases member
  | cons y rest ih =>
    by_cases known : key y ∈ seen
    · rw [firsts_cons_of_mem known] at member
      exact ih member
    · rw [firsts_cons_of_not_mem known] at member
      obtain rfl | later := mem_cons.mp member
      · exact known
      · exact fun old => ih later (mem_cons_of_mem _ old)

theorem pairwise_firsts (key : α → κ) (seen : List κ) (l : List α)
    : (firsts key seen l).Pairwise (fun x y => key x ≠ key y) := by
  induction l generalizing seen with
  | nil => exact List.Pairwise.nil
  | cons y rest ih =>
    by_cases known : key y ∈ seen
    · rw [firsts_cons_of_mem known]
      exact ih seen
    · rw [firsts_cons_of_not_mem known]
      refine pairwise_cons.mpr ⟨fun x member same => ?_, ih _⟩
      exact key_not_mem_of_mem_firsts member (same ▸ mem_cons_self)

/-- The key of an element is seen before, or it is that of an element that is taken. -/
theorem exists_first (key : α → κ) (seen : List κ) (member : x ∈ l)
    : key x ∈ seen ∨ ∃ y ∈ firsts key seen l, key y = key x := by
  induction l generalizing seen with
  | nil => cases member
  | cons z rest ih =>
    by_cases known : key z ∈ seen
    · rw [firsts_cons_of_mem known]
      obtain rfl | later := mem_cons.mp member
      · exact .inl known
      · exact ih seen later
    · rw [firsts_cons_of_not_mem known]
      obtain rfl | later := mem_cons.mp member
      · exact .inr ⟨x, mem_cons_self, rfl⟩
      · obtain old | ⟨y, taken, same⟩ := ih (key z :: seen) later
        · obtain here | old := mem_cons.mp old
          · exact .inr ⟨z, mem_cons_self, here.symm⟩
          · exact .inl old
        · exact .inr ⟨y, mem_cons_of_mem _ taken, same⟩

end Kv
