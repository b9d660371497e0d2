import Intreccio.Graph.Footprints

/-! What the entry functions do to the store, key by key, when they succeed.
No entry function scans, so every effect holds under any scan rule.
-/

namespace Intreccio.Graph

open Kv Kv.Program Words Codec Catalog

variable {rule : ScanRule Bytes Bytes} {s s' : Store}

variable {l k : UInt32}

theorem exec_hasIndex {b : Bool}
    : (hasIndex l k).Exec rule s (.ok b) s' ↔ b = (cell s (.index l k)).isSome ∧ s' = s := by
  simp [hasIndex, registered, Key.indexKey_eq, cell]

theorem exec_hasRelIndex {t k : UInt32} {b : Bool}
    : (hasRelIndex t k).Exec rule s (.ok b) s' ↔ b = (cell s (.relIndex t k)).isSome ∧ s' = s := by
  simp [hasRelIndex, registered, Key.relIndexKey_eq, cell]

theorem exec_getConstraint {d : Option ConstraintDef} (ran : (getConstraint l k).Exec rule s (.ok d) s')
    : d.isSome = (cell s (.constraint l k)).isSome ∧ s' = s := by
  simp only [getConstraint, bind_eq, pure_eq, exec_lookup_bind, Key.constraintKey_eq] at ran
  cases held : s.get (Key.constraint l k).bytes with
  | none =>
    simp only [held, exec_ret] at ran
    simp [cell, held, ran]
  | some v =>
    simp only [held, exec_ofExcept_bind, exec_ret] at ran
    obtain ⟨def', _, found, same⟩ := ran
    simp [cell, held, found, same]

theorem exec_hasUnique {b : Bool} (ran : (hasUnique l k).Exec rule s (.ok b) s')
    : b = (cell s (.constraint l k)).isSome ∧ s' = s := by
  simp only [hasUnique, bind_eq, pure_eq, exec_bind_ok, exec_ret] at ran
  obtain ⟨d, mid, got, found, same⟩ := ran
  obtain ⟨registered, unchanged⟩ := exec_getConstraint got
  exact ⟨found.trans registered, same.trans unchanged⟩

variable {u : Unit} {b : Bytes} {d c : Scalar} {κ : Key} {n : UInt64} {on : Bool} {v : Val}

/-- Code behind a question about the registry runs when the entry is there. -/
theorem exec_gated {ask : Txn Bool} {body : Txn Unit}
    (answer : ∀ {b mid}, ask.Exec rule s (.ok b) mid → b = (cell s κ).isSome ∧ mid = s)
    (ran : (gated ask body).Exec rule s (.ok u) s')
    : (cell s κ = none ∧ s' = s) ∨ (cell s κ ≠ none ∧ body.Exec rule s (.ok u) s') := by
  obtain ⟨b, mid, asked, rest⟩ := exec_bind_ok.mp ran
  obtain ⟨rfl, rfl⟩ := answer asked
  cases held : cell mid κ with
  | none =>
    rw [held, if_neg (by simp), exec_ret] at rest
    exact .inl ⟨rfl, rest.2⟩
  | some v =>
    rw [held, if_pos Option.isSome_some] at rest
    exact .inr ⟨by simp, rest⟩

/-- The owner is read from an owner entry; entries are eight bytes. -/
theorem exec_valueOwner {next : Option UInt64 → Txn Unit}
    (ran : ((valueOwner κ.bytes).bind next).Exec rule s (.ok u) s')
    : (next ((cell s κ).map uint64OfBytes)).Exec rule s (.ok u) s' := by
  obtain ⟨owner, mid, read, ran⟩ := exec_bind_ok.mp ran
  simp only [valueOwner, bind_eq, pure_eq, throw_eq, exec_lookup_bind] at read
  cases held : s.get κ.bytes with
  | none => simp_all [cell]
  | some v =>
    simp only [held] at read
    by_cases size : v.length ≠ 8
    · rw [if_pos size] at read
      exact (exec_fail_bind.mp read).elim
    · simp_all [cell]

theorem not_exec_violation : ¬ (violation l k c).Exec rule s (.ok u) s' := by
  simp [violation, exec_bind_ok]

/-- The value was free and the node took it, or the node held it, or it cannot be claimed. -/
def Claimed (s : Store) (l k : UInt32) (c : Scalar) (n : UInt64) (s' : Store) : Prop :=
  (uniqueValue c = none ∧ s' = s)
  ∨ ∃ d, uniqueValue c = some d
    ∧ ((cell s (.unique l k d) = none ∧ s' = s.set (Key.unique l k d).bytes (uint64Bytes n))
      ∨ ((cell s (.unique l k d)).map uint64OfBytes = some n ∧ s' = s))

theorem exec_claimValue (ran : (claimValue l k c n).Exec rule s (.ok u) s') : Claimed s l k c n s' := by
  cases canon : uniqueValue c with
  | none =>
    simp only [claimValue, canon, pure_eq, exec_ret] at ran
    exact .inl ⟨canon, ran.2⟩
  | some d =>
    refine .inr ⟨d, canon, ?_⟩
    simp only [claimValue, canon, Key.uniqueKey_eq, bind_eq, exec_ofExcept_bind,
      Except.ok.injEq, exists_eq_left'] at ran
    have rest := exec_valueOwner ran
    cases held : cell s (.unique l k d) with
    | none =>
      simp only [held, Option.map_none, exec_write] at rest
      exact .inl ⟨rfl, rest⟩
    | some v =>
      simp only [held, Option.map_some] at rest
      by_cases other : uint64OfBytes v ≠ n
      · rw [if_pos other] at rest
        exact absurd rest not_exec_violation
      · rw [if_neg other, pure_eq, exec_ret] at rest
        exact .inr ⟨by simpa using not_not.mp other, rest.2⟩

/-- The node's owner entry of the value is gone; an entry of another node stays. -/
def Released (s : Store) (l k : UInt32) (c : Scalar) (n : UInt64) (s' : Store) : Prop :=
  (uniqueValue c = none ∧ s' = s)
  ∨ ∃ d, uniqueValue c = some d
    ∧ (((cell s (.unique l k d)).map uint64OfBytes = some n
        ∧ s' = s.delete (Key.unique l k d).bytes)
      ∨ ((cell s (.unique l k d)).map uint64OfBytes ≠ some n ∧ s' = s))

theorem exec_releaseValue
    (ran : (releaseValue l k c n).Exec rule s (.ok u) s')
    : Released s l k c n s' := by
  cases canon : uniqueValue c with
  | none =>
    simp only [releaseValue, canon, pure_eq, exec_ret] at ran
    exact .inl ⟨canon, ran.2⟩
  | some d =>
    refine .inr ⟨d, canon, ?_⟩
    simp only [releaseValue, canon, Key.uniqueKey_eq, bind_eq, exec_ofExcept_bind,
      Except.ok.injEq, exists_eq_left'] at ran
    have rest := exec_valueOwner ran
    cases held : cell s (.unique l k d) with
    | none =>
      simp only [held, Option.map_none, pure_eq, exec_ret] at rest
      exact .inr ⟨by simp, rest.2⟩
    | some v =>
      simp only [held, Option.map_some] at rest
      by_cases mine : uint64OfBytes v = n
      · rw [if_pos mine, exec_erase] at rest
        exact .inl ⟨by simp [mine], rest⟩
      · rw [if_neg mine, pure_eq, exec_ret] at rest
        exact .inr ⟨by simpa using mine, rest.2⟩

/-- The store with the entry written, or erased. -/
def marked (on : Bool) (s : Store) (κ : Key) : Store := if on then s.set κ.bytes [] else s.delete κ.bytes

@[simp] theorem cell_marked (on : Bool) (s : Store) (κ other : Key)
    : cell (marked on s κ) other = if other = κ then (if on then some [] else none) else cell s other := by
  cases on <;> simp [marked]

theorem exec_mark : (mark on κ).Exec rule s (.ok u) s' ↔ s' = marked on s κ := by
  cases on with
  | true => exact exec_write
  | false => exact exec_erase

/-- The value is claimed, or released. -/
def Owned (on : Bool) (s : Store) (l k : UInt32) (c : Scalar) (n : UInt64) (s' : Store) : Prop :=
  if on then Claimed s l k c n s' else Released s l k c n s'

theorem exec_editOwner (ran : (editOwner on l k c n).Exec rule s (.ok u) s') : Owned on s l k c n s' := by
  cases on with
  | true => exact exec_claimValue ran
  | false => exact exec_releaseValue ran

/-- Only the owner of the value changes. -/
theorem Owned.frame (owned : Owned on s l k c n s')
    (other : ∀ d, uniqueValue c = some d → κ ≠ .unique l k d)
    : cell s' κ = cell s κ := by
  cases on
  all_goals
    rcases owned with ⟨_, rfl⟩ | ⟨d, canon, ⟨_, rfl⟩ | ⟨_, rfl⟩⟩
    · rfl
    · simp [other d canon]
    · rfl

/-- A fact with another one added to it, or taken from it. -/
def Edits (on : Bool) (P Q : Prop) : Prop := if on then P ∨ Q else P ∧ ¬ Q

@[simp] theorem edits_true {P Q : Prop} : Edits true P Q ↔ P ∨ Q := Iff.rfl

@[simp] theorem edits_false {P Q : Prop} : Edits false P Q ↔ P ∧ ¬ Q := Iff.rfl

section

-- Owner entries are node IDs.
variable (wide : ∀ b, cell s (.unique l k d) = some b → ∃ m, b = uint64Bytes m)

include wide

theorem owner_of_map (owned : (cell s (.unique l k d)).map uint64OfBytes = some n)
    : cell s (.unique l k d) = some (uint64Bytes n) := by
  obtain ⟨held, found, number⟩ := Option.map_eq_some_iff.mp owned
  obtain ⟨m, rfl⟩ := wide held found
  rw [found, ← number, uint64OfBytes_uint64Bytes]

/-- A claim adds the entry of the node and changes no other. -/
theorem Claimed.owner (claimed : Claimed s l k c n s')
    : cell s' (.unique l k d) = some b
      ↔ cell s (.unique l k d) = some b ∨ (uniqueValue c = some d ∧ b = uint64Bytes n) := by
  rcases claimed with ⟨nan, rfl⟩ | ⟨d₀, canon, claimed⟩
  · simp [nan]
  rw [canon, Option.some.injEq]
  by_cases here : d₀ = d
  · subst here
    rcases claimed with ⟨vacant, rfl⟩ | ⟨owned, rfl⟩
    · simp [vacant, eq_comm]
    · simp [owner_of_map wide owned, eq_comm]
  · rcases claimed with ⟨_, rfl⟩ | ⟨_, rfl⟩ <;> simp [here, Ne.symm here]

theorem Released.owner (released : Released s l k c n s')
    : cell s' (.unique l k d) = some b
      ↔ cell s (.unique l k d) = some b ∧ ¬ (uniqueValue c = some d ∧ b = uint64Bytes n) := by
  rcases released with ⟨nan, rfl⟩ | ⟨d₀, canon, released⟩
  · simp [nan]
  rw [canon, Option.some.injEq]
  by_cases here : d₀ = d
  · subst here
    rcases released with ⟨owned, rfl⟩ | ⟨foreign, rfl⟩
    · simp [owner_of_map wide owned, eq_comm]
    · refine ⟨fun found => ⟨found, ?_⟩, And.left⟩
      rintro ⟨_, rfl⟩
      exact foreign (by simp [found])
  · rcases released with ⟨_, rfl⟩ | ⟨_, rfl⟩ <;> simp [here, Ne.symm here]

theorem Owned.owner (owned : Owned on s l k c n s')
    : cell s' (.unique l k d) = some b
      ↔ Edits on (cell s (.unique l k d) = some b) (uniqueValue c = some d ∧ b = uint64Bytes n) := by
  cases on with
  | true => exact Claimed.owner wide owned
  | false => exact Released.owner wide owned

end

/-- A successful put or removal: nothing to index, or the entry is there or gone and so is the
owner where the pair is constrained.
-/
theorem exec_editEntry (on : Bool) (ran : (editEntry on l k v n).Exec rule s (.ok u) s')
    : ((v.scalar? = none ∨ cell s (.index l k) = none) ∧ s' = s)
      ∨ ∃ c, v.scalar? = some c ∧ cell s (.index l k) ≠ none
        ∧ ((cell s (.constraint l k) = none ∧ s' = marked on s (.prop l k c n))
          ∨ (cell s (.constraint l k) ≠ none ∧ Owned on (marked on s (.prop l k c n)) l k c n s')) := by
  cases scalar : v.scalar? with
  | none =>
    rw [editEntry_none scalar] at ran
    exact .inl ⟨.inl rfl, (exec_ret.mp ran).2⟩
  | some c =>
    obtain rfl := Val.scalar?_eq_some.mp scalar
    rw [editEntry_toVal] at ran
    obtain ⟨missing, same⟩ | ⟨present, rest⟩ := exec_gated exec_hasIndex.mp ran
    · exact .inl ⟨.inr missing, same⟩
    · obtain ⟨_, mid, marking, rest⟩ := exec_bind_ok.mp rest
      obtain rfl := exec_mark.mp marking
      have outcome := exec_gated exec_hasUnique rest
      rw [cell_marked, if_neg (by simp)] at outcome
      exact .inr ⟨c, rfl, present, outcome.imp_right fun owns => ⟨owns.1, exec_editOwner owns.2⟩⟩

/-- An edit changes the entry of the value and its owner only. -/
theorem exec_editEntry_frame (on : Bool)
    (ran : (editEntry on l k v n).Exec rule s (.ok u) s')
    (entry : ∀ c, v.scalar? = some c → κ ≠ .prop l k c n)
    (owner : ∀ c d, v.scalar? = some c → uniqueValue c = some d → κ ≠ .unique l k d)
    : cell s' κ = cell s κ := by
  rcases exec_editEntry on ran with ⟨_, rfl⟩ | ⟨c, scalar, _, outcome⟩
  · rfl
  have mark : cell (marked on s (.prop l k c n)) κ = cell s κ := by rw [cell_marked, if_neg (entry c scalar)]
  rcases outcome with ⟨_, rfl⟩ | ⟨_, owned⟩
  · exact mark
  · exact (owned.frame (owner c · scalar)).trans mark

/-- A successful relationship put or removal: nothing to index, or the entry is there or gone. -/
theorem exec_editRelEntry (on : Bool) {t k : UInt32} {e : UInt64}
    (ran : (editRelEntry on t k v e).Exec rule s (.ok u) s')
    : ((v.scalar? = none ∨ cell s (.relIndex t k) = none) ∧ s' = s)
      ∨ ∃ c, v.scalar? = some c ∧ cell s (.relIndex t k) ≠ none ∧ s' = marked on s (.relProp t k c e) := by
  cases scalar : v.scalar? with
  | none =>
    rw [editRelEntry_none scalar] at ran
    exact .inl ⟨.inl rfl, (exec_ret.mp ran).2⟩
  | some c =>
    obtain rfl := Val.scalar?_eq_some.mp scalar
    rw [editRelEntry_toVal] at ran
    obtain ⟨missing, same⟩ | ⟨present, rest⟩ := exec_gated exec_hasRelIndex.mp ran
    · exact .inl ⟨.inr missing, same⟩
    · exact .inr ⟨c, rfl, present, exec_mark.mp rest⟩

/-- The value of a counter; a missing counter stands at 0. -/
def counterAt (s : Store) (c : Counter) : UInt64 :=
  ((cell s (.counter c)).map uint64OfBytes).getD 0

/-- The next ID is one above the counter, modulo `2 ^ 64`, and is stored. -/
theorem exec_nextCounter {c : Counter} {id : UInt64}
    (ran : (nextCounter c.kind).Exec rule s (.ok id) s')
    : id = counterAt s c + 1 ∧ s' = s.set (Key.counter c).bytes (uint64Bytes id) := by
  simp only [nextCounter, bind_eq, pure_eq, exec_lookup_bind, Key.counterKey_eq] at ran
  cases held : s.get (Key.counter c).bytes with
  | none =>
    simp only [held, exec_ret_bind, exec_write_bind, exec_ret] at ran
    obtain ⟨rfl, rfl⟩ := ran
    simp [counterAt, cell, held]
  | some v =>
    simp only [held, exec_ofExcept_bind, exec_write_bind, exec_ret] at ran
    obtain ⟨cur, decoded, rfl, rfl⟩ := ran
    have value : uint64OfBytes v = cur := by
      simp only [decodeU64] at decoded
      split at decoded
      · cases decoded
      · exact Except.ok.inj decoded
    simp [counterAt, cell, held, value]

theorem exec_lookupDict {d : Dict} {name : Str} {id : Option UInt32}
    (ran : (lookupDict d.fwdTag name).Exec rule s (.ok id) s')
    : id = (cell s (.forward d name)).map uint32OfBytes ∧ s' = s := by
  simp only [lookupDict, bind_eq, pure_eq, exec_lookup_bind, Key.forward_eq] at ran
  cases held : s.get (Key.forward d name).bytes with
  | none =>
    simp only [held, exec_ret] at ran
    simp [cell, held, ran]
  | some v =>
    simp only [held, exec_ofExcept_bind, exec_ret] at ran
    obtain ⟨found, decoded, rfl, rfl⟩ := ran
    simp only [decodeU32] at decoded
    split at decoded
    · cases decoded
    · simp [cell, held, Except.ok.inj decoded]

/-- Interning finds the name, or allocates the next ID of the dictionary, which fits in 32
bits, and writes both directions.
-/
theorem exec_internDict {d : Dict} {name : Str} {id : UInt32}
    (ran : (internDict d.fwdTag d.kind name).Exec rule s (.ok id) s')
    : ((cell s (.forward d name)).map uint32OfBytes = some id ∧ s' = s)
      ∨ (cell s (.forward d name) = none
        ∧ counterAt s (.dict d) + 1 ≤ 0xFFFFFFFF
        ∧ id = (counterAt s (.dict d) + 1).toUInt32
        ∧ s' = ((s.set (Key.counter (.dict d)).bytes (uint64Bytes (counterAt s (.dict d) + 1))).set
            (Key.forward d name).bytes (uint32Bytes id)).set (Key.reverse d id).bytes name) := by
  simp only [internDict, bind_eq, pure_eq, throw_eq, exec_lookup_bind, Key.forward_eq] at ran
  cases held : s.get (Key.forward d name).bytes with
  | some v =>
    simp only [held, exec_ofExcept] at ran
    obtain ⟨decoded, rfl⟩ := ran
    simp only [decodeU32] at decoded
    split at decoded
    · cases decoded
    · exact .inl ⟨by simp [cell, held, Except.ok.inj decoded], rfl⟩
  | none =>
    simp only [held] at ran
    obtain ⟨id64, mid, allocated, rest⟩ := exec_bind_ok.mp ran
    obtain ⟨fresh, stored⟩ := exec_nextCounter (c := .dict d) allocated
    subst id64 mid
    by_cases large : counterAt s (.dict d) + 1 > 0xFFFFFFFF
    · rw [if_pos large] at rest
      exact (exec_fail_bind.mp rest).elim
    · rw [if_neg large] at rest
      simp only [exec_write_bind, exec_ret, Key.reverseKey_eq] at rest
      obtain ⟨rfl, rfl⟩ := rest
      exact .inr ⟨held, UInt64.not_lt.mp large, rfl, rfl⟩

end Intreccio.Graph
