import Intreccio.Graph.Legibility
import Intreccio.Graph.Simulation

/-! Removing the entry of a property from the index of its label (`delPropEntry` in `internal/graph/unique.go`)
succeeds on every store that can be read.
-/

namespace Intreccio.Graph

open Kv Kv.Program Words Codec Catalog List

variable {s s' : Store} {n e : UInt64} {l k : UInt32}

theorem Legible.exec_hasUnique (legible : Legible s) (l k : UInt32)
    : (hasUnique l k).Exec .exact s (.ok (cell s (.constraint l k)).isSome) s := by
  simp only [hasUnique, bind_eq, pure_eq]
  rcases held : cell s (.constraint l k) with _ | b
  · refine exec_bind_ok.mpr ⟨none, s, ?_, exec_ret.mpr ⟨rfl, rfl⟩⟩
    simp only [getConstraint, bind_eq, pure_eq, exec_lookup_bind, Key.constraintKey_eq]
    rw [show s.get (Key.constraint l k).bytes = none from held]
    exact exec_ret.mpr ⟨rfl, rfl⟩
  · have fits : b ≠ [] := legible _ b held
    obtain ⟨flags, name, rfl⟩ := exists_cons_of_ne_nil fits
    refine exec_bind_ok.mpr ⟨some ⟨l, k, name, flags &&& 1 ≠ 0⟩, s, ?_, exec_ret.mpr ⟨rfl, rfl⟩⟩
    simp only [getConstraint, bind_eq, pure_eq, exec_lookup_bind, Key.constraintKey_eq]
    rw [show s.get (Key.constraint l k).bytes = some (flags :: name) from held]
    exact exec_ret.mpr ⟨rfl, rfl⟩

theorem Legible.exec_valueOwner (legible : Legible s) (l k : UInt32) (d : Scalar)
    : (valueOwner (Key.unique l k d).bytes).Exec .exact s
        (.ok ((cell s (.unique l k d)).map uint64OfBytes)) s := by
  simp only [valueOwner, bind_eq, pure_eq, throw_eq, exec_lookup_bind]
  rcases held : cell s (.unique l k d) with _ | b
  · rw [show s.get (Key.unique l k d).bytes = none from held]
    exact exec_ret.mpr ⟨rfl, rfl⟩
  · rw [show s.get (Key.unique l k d).bytes = some b from held]
    obtain ⟨owner, rfl⟩ := legible _ b held
    simp

theorem Legible.exec_releaseValue (legible : Legible s) (l k : UInt32) (c : Scalar) (n : UInt64)
    : ∃ s', (releaseValue l k c n).Exec .exact s (.ok ()) s' := by
  cases canon : uniqueValue c with
  | none =>
    simp only [releaseValue, canon, pure_eq]
    exact ⟨s, exec_ret.mpr ⟨rfl, rfl⟩⟩
  | some d =>
    simp only [releaseValue, canon, Key.uniqueKey_eq, bind_eq, ofExcept_ok_bind, exec_bind_ok]
    cases owner : (cell s (.unique l k d)).map uint64OfBytes with
    | none =>
      exact ⟨s, none, s, owner ▸ legible.exec_valueOwner l k d, exec_ret.mpr ⟨rfl, rfl⟩⟩
    | some m =>
      by_cases mine : m = n
      · exact ⟨_, some m, s, owner ▸ legible.exec_valueOwner l k d, by
          simp only [if_pos mine]
          exact exec_erase.mpr rfl⟩
      · exact ⟨s, some m, s, owner ▸ legible.exec_valueOwner l k d, by
          simp only [if_neg mine]
          exact exec_ret.mpr ⟨rfl, rfl⟩⟩

theorem exec_hasIndex_cell (s : Store) (l k : UInt32)
    : (hasIndex l k).Exec .exact s (.ok (cell s (.index l k)).isSome) s :=
  exec_hasIndex.mpr ⟨rfl, rfl⟩

/-- Code behind a question about the registry runs where it is asked to. -/
theorem exec_gated_of {ask : Txn Bool} {body : Txn Unit} {κ : Key}
    (answer : ask.Exec .exact s (.ok (cell s κ).isSome) s)
    (runs : cell s κ ≠ none → body.Exec .exact s (.ok ()) s') (idle : cell s κ = none → s' = s)
    : (gated ask body).Exec .exact s (.ok ()) s' := by
  cases held : cell s κ with
  | none =>
    rw [held] at answer
    exact exec_bind_ok.mpr ⟨false, s, answer, exec_ret.mpr ⟨rfl, idle held⟩⟩
  | some b =>
    rw [held] at answer
    exact exec_bind_ok.mpr ⟨true, s, answer, runs (by simp [held])⟩

theorem exec_gated_total {ask : Txn Bool} {body : Txn Unit} {κ : Key}
    (answer : ask.Exec .exact s (.ok (cell s κ).isSome) s)
    (total : ∃ s', body.Exec .exact s (.ok ()) s')
    : ∃ s', (gated ask body).Exec .exact s (.ok ()) s' := by
  obtain ⟨after, ran⟩ := total
  by_cases held : cell s κ = none
  · exact ⟨s, exec_gated_of answer (absurd held) (fun _ => rfl)⟩
  · exact ⟨after, exec_gated_of answer (fun _ => ran) (fun missing => absurd missing held)⟩

theorem Legible.exec_delPropEntry (legible : Legible s) (l k : UInt32) (v : Val) (n : UInt64)
    : ∃ s', (editEntry false l k v n).Exec .exact s (.ok ()) s' := by
  cases scalar : v.scalar? with
  | none =>
    rw [editEntry_none scalar]
    exact ⟨s, exec_ret.mpr ⟨rfl, rfl⟩⟩
  | some c =>
    obtain rfl := Val.scalar?_eq_some.mp scalar
    rw [editEntry_toVal]
    have erased := legible.erase (Key.prop l k c n).bytes
    obtain ⟨after, released⟩ := exec_gated_total (erased.exec_hasUnique l k) (erased.exec_releaseValue l k c n)
    exact exec_gated_total (exec_hasIndex_cell s l k) ⟨after, exec_erase_bind.mpr released⟩

end Intreccio.Graph
