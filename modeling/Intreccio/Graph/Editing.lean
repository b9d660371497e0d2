import Intreccio.Graph.Scans

/-! A node being edited: each put and each removal of an entry changes the set of values the
nodes bear by one value, and the indexes stay aligned with that set throughout.
An operation only says how its loops lead from the old record's values to the new one's.
-/

namespace Intreccio.Graph

open Kv Kv.Program Words Codec

variable {rule : ScanRule Bytes Bytes} {cov : Coverage} {s s' : Store} {bears : Bearing}
  {n : UInt64} {l k : UInt32} {v : Val}

theorem toVal_inj {a b : Scalar} : a.toVal = b.toVal ↔ a = b := by
  refine ⟨fun same => ?_, fun same => by rw [same]⟩
  simpa using congrArg Val.scalar? same

def Bearing.put (bears : Bearing) (n : UInt64) (l k : UInt32) (v : Val) : Bearing :=
  fun m l' k' c => bears m l' k' c ∨ (m = n ∧ l' = l ∧ k' = k ∧ c.toVal = v)

def Bearing.del (bears : Bearing) (n : UInt64) (l k : UInt32) (v : Val) : Bearing :=
  fun m l' k' c => bears m l' k' c ∧ ¬ (m = n ∧ l' = l ∧ k' = k ∧ c.toVal = v)

/-- The value is put, or removed. -/
def Bearing.edit (on : Bool) (bears : Bearing) (n : UInt64) (l k : UInt32) (v : Val) : Bearing :=
  fun m l' k' c => Edits on (bears m l' k' c) (m = n ∧ l' = l ∧ k' = k ∧ c.toVal = v)

/-- The node bears nothing but `v` under the pair. -/
def Only (bears : Bearing) (n : UInt64) (l k : UInt32) (v : Val) : Prop :=
  ∀ c, bears n l k c → c.toVal = v

variable {u : Unit}

section Owners

variable {P : UInt64 → Scalar → Prop} {c d : Scalar} {b : Bytes}

theorem owned_or
    : (∃ m e, (P m e ∨ (m = n ∧ e = c)) ∧ uniqueValue e = some d ∧ b = uint64Bytes m)
      ↔ (∃ m e, P m e ∧ uniqueValue e = some d ∧ b = uint64Bytes m)
        ∨ (uniqueValue c = some d ∧ b = uint64Bytes n) := by
  constructor
  · rintro ⟨m, e, held | ⟨rfl, rfl⟩, rest⟩
    · exact .inl ⟨m, e, held, rest⟩
    · exact .inr rest
  · rintro (⟨m, e, held, rest⟩ | rest)
    · exact ⟨m, e, .inl held, rest⟩
    · exact ⟨n, c, .inr ⟨rfl, rfl⟩, rest⟩

/-- Values with one canonical form, such as 1 and 1.0, share an owner. -/
theorem owned_and (only : ∀ e, P n e → e = c)
    : (∃ m e, (P m e ∧ ¬ (m = n ∧ e = c)) ∧ uniqueValue e = some d ∧ b = uint64Bytes m)
      ↔ (∃ m e, P m e ∧ uniqueValue e = some d ∧ b = uint64Bytes m)
        ∧ ¬ (uniqueValue c = some d ∧ b = uint64Bytes n) := by
  constructor
  · rintro ⟨m, e, ⟨held, other⟩, value, rfl⟩
    refine ⟨⟨m, e, held, value, rfl⟩, fun mine => other ?_⟩
    obtain rfl := uint64Bytes_inj.mp mine.2
    exact ⟨rfl, only e held⟩
  · rintro ⟨⟨m, e, held, value, rfl⟩, other⟩
    refine ⟨m, e, ⟨held, ?_⟩, value, rfl⟩
    rintro ⟨rfl, rfl⟩
    exact other ⟨value, rfl⟩

end Owners

theorem PairAligned.wide (aligned : PairAligned cov s bears l k) {d : Scalar} (covered : cov.covers d) (b : Bytes)
    (held : cell s (.unique l k d) = some b)
    : ∃ m, b = uint64Bytes m := by
  obtain ⟨_, m, _, _, _, number⟩ := (aligned.owners d b covered).mp held
  exact ⟨m, number⟩

/-- Nothing is entered for a value without an index key or under a pair that is not indexed. -/
theorem PairAligned.idle {bears' : Bearing} (aligned : PairAligned cov s bears l k)
    (nothing : v.scalar? = none ∨ cell s (.index l k) = none)
    (same : ∀ m c, c.toVal ≠ v → (bears' m l k c ↔ bears m l k c))
    : PairAligned cov s bears' l k := by
  rcases nothing with scalar | missing
  · refine aligned.congr (fun _ _ => rfl) (fun m c _ => same m c ?_)
    rintro rfl
    simp at scalar
  · have indexed : ¬ Indexed s l k := not_not.mpr missing
    have free : ¬ Constrained s l k := fun constrained => indexed (aligned.backed constrained)
    refine ⟨fun c m covered => ?_, fun d b covered => ?_, aligned.backed⟩
    · rw [aligned.props c m covered]
      simp [indexed]
    · rw [aligned.owners d b covered]
      simp [free]

/-- A put that succeeds enters the value under its pair; a removal takes it out, provided the
node bears nothing else under the pair.
-/
theorem PairAligned.edit (on : Bool) (aligned : PairAligned cov s bears l k)
    (only : on = false → Only bears n l k v) (ran : (editEntry on l k v n).Exec rule s (.ok u) s')
    : PairAligned cov s' (bears.edit on n l k v) l k := by
  have framed := (within_editEntry on l k v n).framed ran
  have index : cell s' (.index l k) = cell s (.index l k) := framed.frame _ id
  have constraint : cell s' (.constraint l k) = cell s (.constraint l k) := framed.frame _ id
  rcases exec_editEntry on ran with ⟨nothing, rfl⟩ | ⟨c, scalar, indexed, outcome⟩
  · refine aligned.idle nothing fun m c other => ?_
    cases on <;> simp [Bearing.edit, other]
  · obtain rfl := Val.scalar?_eq_some.mp scalar
    refine ⟨fun d m covered => ?_, fun d b covered => ?_, ?_⟩
    · have entered : cell s' (.prop l k d m) = cell (marked on s (.prop l k c n)) (.prop l k d m) := by
        rcases outcome with ⟨_, rfl⟩ | ⟨_, owned⟩
        · rfl
        · exact owned.frame (by simp)
      have present : cell s (.index l k) ≠ none := indexed
      have law := aligned.props d m covered
      rw [entered, cell_marked, Indexed, index]
      simp only [Indexed, Bearing.edit, toVal_inj, Key.prop.injEq, true_and] at law ⊢
      by_cases here : d = c ∧ m = n
      · cases on <;> simp [here, present]
      · have away : ¬ (m = n ∧ d = c) := fun both => here both.symm
        rw [if_neg here, law]
        cases on <;> simp [away]
    · have owner : cell s' (.unique l k d) = some b ↔ Edits on (cell s (.unique l k d) = some b)
          (Constrained s l k ∧ uniqueValue c = some d ∧ b = uint64Bytes n) := by
        rcases outcome with ⟨free, rfl⟩ | ⟨constrained, owned⟩
        · cases on <;> simp [Constrained, free]
        · rw [owned.owner (by simpa using aligned.wide covered)]
          simp [Constrained, constrained]
      rw [Constrained, constraint, ← Constrained, owner, aligned.owners d b covered]
      simp only [Bearing.edit, toVal_inj, true_and]
      cases on with
      | true => simp only [edits_true, owned_or, and_or_left]
      | false =>
        simp only [edits_false]
        rw [owned_and fun e borne => toVal_inj.mp (only rfl e borne)]
        by_cases constrained : Constrained s l k <;> simp [constrained]
    · rw [Constrained, constraint, Indexed, index]
      exact aligned.backed

/-- A key of another pair is none of a pair's entries. -/
theorem OfPair.apart {l' k' : UInt32} (other : ¬ (l' = l ∧ k' = k)) (κ : Key)
    (inside : OfPair l' k' κ)
    : ¬ EntryKey l k n κ := by
  cases κ <;> simp_all [OfPair, EntryKey]

/-- The entries of one pair are edited. -/
theorem Entered.entry {bears' : Bearing} (entered : Entered cov s bears) (framed : Framed (EntryKey l k n) s s')
    (here : PairAligned cov s' bears' l k)
    (away : ∀ m l' k' c, ¬ (l' = l ∧ k' = k) → (bears' m l' k' c ↔ bears m l' k' c))
    : Entered cov s' bears' := by
  intro l' k'
  by_cases same : l' = l ∧ k' = k
  · obtain ⟨rfl, rfl⟩ := same
    exact here
  · exact (entered l' k').congr (fun κ inside => framed.frame κ (inside.apart same))
      (fun m c _ => away m l' k' c same)

theorem Entered.edit (on : Bool) (entered : Entered cov s bears) (only : on = false → Only bears n l k v)
    (ran : (editEntry on l k v n).Exec rule s (.ok u) s')
    : Entered cov s' (bears.edit on n l k v) := by
  refine entered.entry ((within_editEntry on l k v n).framed ran) ((entered l k).edit on only ran)
    (fun m l' k' c other => ?_)
  have away : ¬ (m = n ∧ l' = l ∧ k' = k ∧ c.toVal = v) := fun here => other ⟨here.2.1, here.2.2.1⟩
  cases on <;> simp [Bearing.edit, away]

theorem Entered.put (entered : Entered cov s bears)
    (ran : (putPropEntry l k v n).Exec rule s (.ok u) s')
    : Entered cov s' (bears.put n l k v) :=
  entered.edit true (by simp) ran

theorem Entered.del (entered : Entered cov s bears) (only : Only bears n l k v)
    (ran : (delPropEntry l k v n).Exec rule s (.ok u) s')
    : Entered cov s' (bears.del n l k v) :=
  entered.edit false (fun _ => only) ran

/-- A loop that edits what one node bears; a removal sees no more than was borne at the start. -/
theorem Entered.loop {α : Type} {items : List α} {body : α → Txn Unit} (on : Bool)
    (edits : α → UInt32 → UInt32 → Scalar → Prop)
    (step : ∀ a ∈ items, ∀ (now : Bearing) (s s' : Store), (on = false → ∀ m l k c, now m l k c → bears m l k c)
      → Entered cov s now → (body a).Exec rule s (.ok ()) s'
      → Entered cov s' (fun m l k c => Edits on (now m l k c) (m = n ∧ edits a l k c)))
    (entered : Entered cov s bears) (ran : (each items body).Exec rule s (.ok u) s')
    : Entered cov s' (fun m l k c => Edits on (bears m l k c) (m = n ∧ ∃ a ∈ items, edits a l k c)) := by
  induction items generalizing s bears with
  | nil =>
    rw [exec_each_nil] at ran
    subst ran
    exact entered.congr (fun _ _ _ _ => rfl) (fun m l k c _ => by cases on <;> simp)
  | cons a rest ih =>
    obtain ⟨mid, first, more⟩ := exec_each_cons.mp ran
    have moved := step a (by simp) bears s mid (fun _ _ _ _ _ => id) entered first
    have done := ih (fun b member now t t' less => step b (by simp [member]) now t t'
      (fun off m l k c borne => ?_)) moved more
    · refine done.congr (fun _ _ _ _ => rfl) (fun m l k c _ => ?_)
      simp only [List.mem_cons, exists_eq_or_imp, and_or_left]
      cases on with
      | true => rw [edits_true, edits_true, edits_true, or_assoc]
      | false => rw [edits_false, edits_false, edits_false, not_or, and_assoc]
    · subst off
      exact (less rfl m l k c borne).1

end Intreccio.Graph
