import Intreccio.Graph.Consistency

/-! The name dictionaries: each is a bijection between the names it knows and their IDs,
numbered from 1, and interning only extends it.
-/

namespace Intreccio.Graph

open Kv Kv.Program Words Codec Catalog List

variable {rule : ScanRule Bytes Bytes} {s s' : Store}

def idOf (s : Store) (d : Dict) (name : Str) : Option UInt32 :=
  (cell s (.forward d name)).map uint32OfBytes

/-- Forward and reverse entries belong together, and the IDs lie between 1 and the counter,
which fits in 32 bits.
-/
structure Dictionary (s : Store) (d : Dict) : Prop where
  forward
    : ∀ name b, cell s (.forward d name) = some b
        → ∃ id, b = uint32Bytes id ∧ cell s (.reverse d id) = some name
  reverse
    : ∀ id name, cell s (.reverse d id) = some name
        → cell s (.forward d name) = some (uint32Bytes id)
  positive : ∀ id name, cell s (.reverse d id) = some name → 0 < id.toNat
  bounded
    : ∀ id name, cell s (.reverse d id) = some name
        → id.toNat ≤ (counterAt s (.dict d)).toNat
  fits : (counterAt s (.dict d)).toNat < 2 ^ 32

theorem Dictionary.empty (d : Dict) : Dictionary .empty d :=
  ⟨by simp, by simp, by simp, by simp, by simp [counterAt]⟩

variable {d : Dict}

theorem Dictionary.congr (dict : Dictionary s d) (agree : ∀ κ, DictKey κ → cell s' κ = cell s κ)
    : Dictionary s' d := by
  have counter : counterAt s' (.dict d) = counterAt s (.dict d) := by
    simp only [counterAt, agree (.counter (.dict d)) trivial]
  refine ⟨fun name b => ?_, fun id name => ?_, fun id name => ?_, fun id name => ?_, ?_⟩
  · simp only [agree (.forward d name) trivial, agree (.reverse d _) trivial]
    exact dict.forward name b
  · rw [agree (.reverse d id) trivial, agree (.forward d name) trivial]
    exact dict.reverse id name
  · rw [agree (.reverse d id) trivial]
    exact dict.positive id name
  · rw [agree (.reverse d id) trivial, counter]
    exact dict.bounded id name
  · rw [counter]
    exact dict.fits

variable {id : UInt32}

theorem Dictionary.idOf_iff (dict : Dictionary s d) {name : Str}
    : idOf s d name = some id ↔ cell s (.reverse d id) = some name := by
  constructor
  · intro known
    obtain ⟨b, held, number⟩ := Option.map_eq_some_iff.mp known
    obtain ⟨id', rfl, back⟩ := dict.forward name b held
    rw [uint32OfBytes_uint32Bytes] at number
    exact number ▸ back
  · intro back
    simp [idOf, dict.reverse id name back]

theorem Dictionary.inj (dict : Dictionary s d) {a b : Str} (left : idOf s d a = some id)
    (right : idOf s d b = some id)
    : a = b :=
  Option.some.inj ((dict.idOf_iff.mp left).symm.trans (dict.idOf_iff.mp right))

/-- Interning changes only dictionaries, keeps them in order and keeps what they know. -/
structure Interned (s s' : Store) : Prop where
  framed : Framed DictKey s s'
  ordered : (∀ d, Dictionary s d) → ∀ d, Dictionary s' d
  keeps : ∀ d name id, idOf s d name = some id → idOf s' d name = some id

theorem Interned.refl (s : Store) : Interned s s := ⟨.refl _ s, id, fun _ _ _ => id⟩

theorem Interned.trans {s₁ s₂ s₃ : Store} (first : Interned s₁ s₂) (second : Interned s₂ s₃)
    : Interned s₁ s₃ :=
  ⟨first.framed.trans second.framed, fun ordered => second.ordered (first.ordered ordered),
    fun d name id known => second.keeps d name id (first.keeps d name id known)⟩

/-- A new name gets the ID after the counter, which no name has.
Witness: the IDs in use do not exceed the counter.
-/
theorem Dictionary.extend {name : Str} {next : UInt64} (ordered : ∀ d, Dictionary s d)
    (new : cell s (.forward d name) = none) (counted : next = counterAt s (.dict d) + 1)
    (small : next ≤ 0xFFFFFFFF) (number : id = next.toUInt32)
    : ∀ d', Dictionary (((s.set (Key.counter (.dict d)).bytes (uint64Bytes next)).set
        (Key.forward d name).bytes (uint32Bytes id)).set (Key.reverse d id).bytes name) d' := by
  intro d'
  have wide : next.toNat = (counterAt s (.dict d)).toNat + 1 := by
    have fits := (ordered d).fits
    rw [counted, UInt64.toNat_add]
    simp only [UInt64.toNat_one]
    omega
  have narrow : id.toNat = next.toNat := by
    have bound : next.toNat ≤ 0xFFFFFFFF := UInt64.le_iff_toNat_le.mp small
    rw [number, UInt64.toNat_toUInt32]
    omega
  have fresh (held : Str) : cell s (.reverse d id) ≠ some held := by
    intro back
    have := (ordered d).bounded id held back
    omega
  have dict := ordered d'
  by_cases here : d' = d
  · subst here
    have counter : counterAt (((s.set (Key.counter (.dict d')).bytes (uint64Bytes next)).set
        (Key.forward d' name).bytes (uint32Bytes id)).set (Key.reverse d' id).bytes name)
          (.dict d') = next := by
      simp [counterAt]
    refine ⟨fun other b => ?_, fun other held => ?_, fun other held => ?_, fun other held => ?_, ?_⟩
    · simp only [cell_set, reduceCtorEq, if_false, Key.forward.injEq, true_and, Key.reverse.injEq]
      intro found
      split at found
      · rename_i same
        exact ⟨id, (Option.some.inj found).symm, by simp [same]⟩
      · obtain ⟨old, rfl, back⟩ := dict.forward other b found
        have older : old ≠ id := by
          rintro rfl
          exact fresh other back
        exact ⟨old, rfl, by rw [if_neg older, back]⟩
    · simp only [cell_set, reduceCtorEq, if_false, Key.forward.injEq, true_and, Key.reverse.injEq]
      intro back
      split at back
      · rename_i same
        obtain rfl := Option.some.inj back
        simp [same]
      · have known := dict.reverse other held back
        have differs : held ≠ name := by
          rintro rfl
          rw [new] at known
          cases known
        rw [if_neg differs]
        exact known
    · simp only [cell_set, reduceCtorEq, if_false, true_and, Key.reverse.injEq]
      intro back
      split at back
      · rename_i same
        rw [same, narrow, wide]
        omega
      · exact dict.positive other held back
    · rw [counter]
      simp only [cell_set, reduceCtorEq, if_false, true_and, Key.reverse.injEq]
      intro back
      split at back
      · rename_i same
        rw [same, narrow]
      · have := dict.bounded other held back
        omega
    · rw [counter]
      have bound : next.toNat ≤ 0xFFFFFFFF := UInt64.le_iff_toNat_le.mp small
      omega
  · have counter : counterAt (((s.set (Key.counter (.dict d)).bytes (uint64Bytes next)).set
        (Key.forward d name).bytes (uint32Bytes id)).set (Key.reverse d id).bytes name)
          (.dict d') = counterAt s (.dict d') := by
      simp [counterAt, here]
    refine ⟨fun other b => ?_, fun other held => ?_, fun other held => ?_, fun other held => ?_, ?_⟩
    · simpa [here] using dict.forward other b
    · simpa [here] using dict.reverse other held
    · simpa [here] using dict.positive other held
    · rw [counter]
      simpa [here] using dict.bounded other held
    · rw [counter]
      exact dict.fits

theorem interned_internDict {name : Str}
    (ran : (internDict d.fwdTag d.kind name).Exec rule s (.ok id) s')
    : Interned s s' ∧ idOf s' d name = some id := by
  have framed := (within_internDict d name).framed ran
  rcases exec_internDict ran with ⟨known, rfl⟩ | ⟨new, small, number, rfl⟩
  · exact ⟨.refl _, known⟩
  · refine ⟨⟨framed, fun ordered => Dictionary.extend ordered new rfl small number, ?_⟩, ?_⟩
    · intro d' other id' known
      have differs : ¬ (d' = d ∧ other = name) := by
        rintro ⟨rfl, rfl⟩
        simp [idOf, new] at known
      simpa [idOf, differs] using known
    · simp [idOf]

/-- The interned labels are the named ones that are not seen yet, each once. -/
theorem interned_internLabels {names : List Str} {seen ids : List UInt32}
    (ran : (internLabels seen names).Exec rule s (.ok ids) s')
    : Interned s s' ∧ ids.Nodup
      ∧ (∀ name ∈ names, ∃ id, idOf s' .label name = some id)
      ∧ ∀ id, id ∈ ids ↔ id ∉ seen ∧ ∃ name ∈ names, idOf s' .label name = some id := by
  induction names generalizing s seen ids with
  | nil =>
    obtain ⟨rfl, rfl⟩ := exec_ret.mp ran
    exact ⟨.refl _, by simp, by simp, by simp⟩
  | cons name rest ih =>
    simp only [internLabels, bind_eq, pure_eq] at ran
    obtain ⟨id, mid, interned, ran⟩ := exec_bind_ok.mp ran
    obtain ⟨first, known⟩ := interned_internDict (d := .label) interned
    by_cases old : id ∈ seen
    · rw [if_pos old] at ran
      obtain ⟨more, distinct, named, members⟩ := ih ran
      have here := more.keeps _ _ _ known
      refine ⟨first.trans more, distinct, ?_, fun other => ?_⟩
      · simp only [forall_mem_cons]
        exact ⟨⟨id, here⟩, named⟩
      · rw [members]
        simp only [mem_cons, exists_eq_or_imp, here, Option.some.injEq]
        refine and_congr_right (fun fresh => ⟨.inr, fun either => either.resolve_left ?_⟩)
        rintro rfl
        exact fresh old
    · rw [if_neg old, exec_bind_ok] at ran
      obtain ⟨others, after, looped, ran⟩ := ran
      obtain ⟨rfl, rfl⟩ := exec_ret.mp ran
      obtain ⟨more, distinct, named, members⟩ := ih looped
      have here := more.keeps _ _ _ known
      refine ⟨first.trans more, nodup_cons.mpr ⟨?_, distinct⟩, ?_, fun other => ?_⟩
      · exact fun member => ((members id).mp member).1 (by simp)
      · simp only [forall_mem_cons]
        exact ⟨⟨id, here⟩, named⟩
      · simp only [mem_cons, members, not_or, exists_eq_or_imp, here, Option.some.injEq]
        by_cases same : other = id
        · simp [same, old]
        · simp [same, Ne.symm same]

/-- The interned entries: each kept name has its ID and, if the names are distinct and the
dictionaries in order, its value under it; under no other ID is anything set.
-/
theorem interned_internEntries {skipNull : Bool} {entries : List (Str × Val)} {out p : Props}
    (ran : (internEntries skipNull entries out).Exec rule s (.ok p) s')
    : Interned s s'
      ∧ (∀ id v, p.get id = some v → out.get id = some v
        ∨ ∃ e ∈ entries, (skipNull && isNull e.2) = false ∧ idOf s' .key e.1 = some id
          ∧ v = normalize e.2)
      ∧ (∀ id, (∀ e ∈ entries, (skipNull && isNull e.2) = false → idOf s' .key e.1 ≠ some id)
        → p.get id = out.get id)
      ∧ ((∀ d, Dictionary s d) → (entries.map Prod.fst).Nodup
        → ∀ e ∈ entries, (skipNull && isNull e.2) = false
          → ∃ id, idOf s' .key e.1 = some id ∧ p.get id = some (normalize e.2)) := by
  induction entries generalizing s out with
  | nil =>
    obtain ⟨rfl, rfl⟩ := exec_ret.mp ran
    exact ⟨.refl _, fun id v => .inl, fun id _ => rfl, by simp⟩
  | cons entry rest ih =>
    obtain ⟨name, value⟩ := entry
    simp only [internEntries, bind_eq] at ran
    cases skipped : skipNull && isNull value with
    | true =>
      simp only [skipped, if_true] at ran
      obtain ⟨more, origin, untouched, entered⟩ := ih ran
      refine ⟨more, fun id v held => ?_, fun id other => ?_, fun ordered fresh => ?_⟩
      · refine (origin id v held).imp_right ?_
        rintro ⟨e, member, rest⟩
        exact ⟨e, by simp [member], rest⟩
      · exact untouched id (fun e member => other e (by simp [member]))
      · simp only [forall_mem_cons, skipped, Bool.true_eq_false, false_implies, true_and]
        exact entered ordered (nodup_cons.mp fresh).2
    | false =>
      simp only [skipped, Bool.false_eq_true, if_false] at ran
      obtain ⟨id₀, mid, interned, ran⟩ := exec_bind_ok.mp ran
      obtain ⟨first, known⟩ := interned_internDict (d := .key) interned
      obtain ⟨more, origin, untouched, entered⟩ := ih ran
      have here := more.keeps _ _ _ known
      refine ⟨first.trans more, fun id v held => ?_, fun id other => ?_, fun ordered fresh => ?_⟩
      · rcases origin id v held with before | ⟨e, member, rest⟩
        · rw [OrderedMap.get_set] at before
          split at before
          · rename_i same
            exact .inr ⟨(name, value), by simp, skipped, same ▸ here, (Option.some.inj before).symm⟩
          · exact .inl before
        · exact .inr ⟨e, by simp [member], rest⟩
      · have differs : id ≠ id₀ := fun same =>
          other (name, value) (by simp) skipped (same ▸ here)
        rw [untouched id (fun e member => other e (by simp [member])), OrderedMap.get_set,
          if_neg differs]
      · obtain ⟨absent, restFresh⟩ := nodup_cons.mp fresh
        simp only [forall_mem_cons]
        refine ⟨fun _ => ⟨id₀, here, ?_⟩, entered (first.ordered ordered) restFresh⟩
        -- A later entry has another name, so another ID.
        rw [untouched id₀ (fun e member _ same => absent (mem_map.mpr ⟨e, member, ?_⟩)),
          OrderedMap.get_set, if_pos rfl]
        exact ((first.trans more).ordered ordered .key).inj same here

end Intreccio.Graph
