import Mathlib.Data.List.Basic

/-! Tuples that are told apart by the joined texts of their members.
A text that contains the separator looks like several members, so tuples of one size can have one joined text
although their members have different ones: some member of one tuple then reaches over the end of the member
of the other.
-/

namespace Kv

open List

section

variable {α β : Type}

/-- The texts one after the other, with the separator between them. -/
def joinedBy (sep : β) : List (List β) → List β
  | [] => []
  | [t] => t
  | t :: rest => t ++ sep :: joinedBy sep rest

/-- After members with equal texts, a member of the first tuple has the text of its counterpart followed by the
separator and more, and this rest continues as the later members of the second tuple do.
-/
def Overhangs (text : α → List β) (sep : β) (t t' : List α) : Prop :=
  ∃ before before' a b after after' extra, t = before ++ a :: after ∧ t' = before' ++ b :: after'
    ∧ before.map text = before'.map text ∧ text a = text b ++ sep :: extra ∧ after' ≠ []
    ∧ joinedBy sep (extra :: after.map text) = joinedBy sep (after'.map text)

/-- The tuples have equal texts member by member, or one overhangs the other. -/
def Collide (text : α → List β) (sep : β) (t t' : List α) : Prop :=
  t.map text = t'.map text ∨ Overhangs text sep t t' ∨ Overhangs text sep t' t

variable {text : α → List β} {sep : β} {t t' : List α}

theorem joinedBy_cons {x : List β} {rest : List (List β)} (more : rest ≠ [])
    : joinedBy sep (x :: rest) = x ++ sep :: joinedBy sep rest := by
  cases rest with
  | nil => exact absurd rfl more
  | cons y rest => rfl

/-- A text with a separator is joined as two texts are. -/
theorem joinedBy_split (x extra : List β) (rest : List (List β))
    : joinedBy sep ((x ++ sep :: extra) :: rest) = x ++ sep :: joinedBy sep (extra :: rest) := by
  cases rest with
  | nil => rfl
  | cons y rest => simp [joinedBy]

/-- Overhanging tuples have one joined text, by induction on the members before. -/
theorem Overhangs.joinedBy_eq (shifted : Overhangs text sep t t')
    : joinedBy sep (t.map text) = joinedBy sep (t'.map text) := by
  obtain ⟨before, before', a, b, after, after', extra, rfl, rfl, same, longer, more, others⟩ := shifted
  rw [map_append, map_append, same, map_cons, map_cons]
  generalize before'.map text = front
  induction front with
  | nil => rw [nil_append, nil_append, longer, joinedBy_split, others, joinedBy_cons (by simpa using more)]
  | cons x front ih => rw [cons_append, cons_append, joinedBy_cons (by simp), joinedBy_cons (by simp), ih]

/-- Members with equal texts may stand before. -/
theorem Overhangs.cons {a b : α} (same : text a = text b) (shifted : Overhangs text sep t t')
    : Overhangs text sep (a :: t) (b :: t') := by
  obtain ⟨before, before', c, d, after, after', extra, rfl, rfl, equal, rest⟩ := shifted
  refine ⟨a :: before, b :: before', c, d, after, after', extra, rfl, rfl, ?_, rest⟩
  rw [map_cons, map_cons, same, equal]

/-- Two texts of which the first is the longer one, each followed by the separator. -/
theorem overhangs_of_append {a b : α} {extra : List β} (longer : text a = text b ++ extra)
    (apart : text a ≠ text b) (more : t' ≠ [])
    (same : extra ++ sep :: joinedBy sep (t.map text) = sep :: joinedBy sep (t'.map text)) (full : t ≠ [])
    : Overhangs text sep (a :: t) (b :: t') := by
  cases extra with
  | nil => exact absurd (longer.trans (append_nil _)) apart
  | cons c extra =>
    obtain ⟨rfl, rest⟩ := List.cons.inj same
    refine ⟨[], [], a, b, t, t', extra, rfl, rfl, rfl, longer, more, ?_⟩
    rw [joinedBy_cons (by simpa using full)]
    exact rest

/-- Tuples of one size have one joined text exactly when they collide, by induction on their members. -/
theorem joinedBy_eq_iff (sizes : t.length = t'.length)
    : joinedBy sep (t.map text) = joinedBy sep (t'.map text) ↔ Collide text sep t t' := by
  constructor
  · intro same
    induction t generalizing t' with
    | nil =>
      obtain rfl := length_eq_zero_iff.mp sizes.symm
      exact .inl rfl
    | cons a t ih =>
      obtain _ | ⟨b, t'⟩ := t'
      · cases sizes
      have sizes : t.length = t'.length := Nat.succ.inj sizes
      by_cases alone : t = []
      · obtain rfl := alone
        obtain rfl := length_eq_zero_iff.mp sizes.symm
        exact .inl (congrArg (fun x => [x]) same)
      have more : t' ≠ [] := by
        rintro rfl
        exact alone (length_eq_zero_iff.mp sizes)
      rw [map_cons, map_cons, joinedBy_cons (by simpa using alone), joinedBy_cons (by simpa using more)] at same
      by_cases equal : text a = text b
      · rw [equal] at same
        obtain members | shifted | shifted := ih sizes (List.cons.inj (append_cancel_left same)).2
        · exact .inl (by rw [map_cons, map_cons, equal, members])
        · exact .inr (.inl (shifted.cons equal))
        · exact .inr (.inr (shifted.cons equal.symm))
      · obtain ⟨extra, longer, rest⟩ | ⟨extra, longer, rest⟩ := append_eq_append_iff.mp same
        · exact .inr (.inr (overhangs_of_append longer (Ne.symm equal) alone rest.symm more))
        · exact .inr (.inl (overhangs_of_append longer equal more rest.symm alone))
  · rintro (members | shifted | shifted)
    · rw [members]
    · exact shifted.joinedBy_eq
    · exact shifted.joinedBy_eq.symm

end

end Kv
