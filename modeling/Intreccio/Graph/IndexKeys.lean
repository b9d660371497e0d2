import Intreccio.Codec.ValueOrder
import Intreccio.Graph.Lookups
import Intreccio.Graph.Scans

/-! Index keys are self-delimiting (`internal/storage/codec/key.go`): what a stem with a value, a
band or the start of a string covers, and that parsing a key gives its parts back.
-/

namespace Intreccio.Graph

open Kv Words Codec List

theorem scalarBytes_ne_nil (c : Scalar) : 1 ≤ (scalarBytes c).length := by
  cases c <;> simp [scalarBytes]

theorem parseValueKey_append {tag : UInt8} {stem : Bytes} (name : String) (c : Scalar)
    (id : UInt64) (width : stem.length = 8)
    : parseValueKey tag name (tag :: (stem ++ scalarBytes c ++ uint64Bytes id)) = .ok (c, id) := by
  have longer := scalarBytes_ne_nil c
  have size : (tag :: (stem ++ scalarBytes c ++ uint64Bytes id)).length
      = 9 + (scalarBytes c).length + 8 := by
    simp [width]
    omega
  have value : (tag :: (stem ++ scalarBytes c ++ uint64Bytes id)).drop 9
      = scalarBytes c ++ uint64Bytes id := by
    rw [append_assoc, drop_succ_cons, drop_left' width]
  have owner : (tag :: (stem ++ scalarBytes c ++ uint64Bytes id)).drop
      (9 + (scalarBytes c).length + 8 - 8) = uint64Bytes id := by
    rw [Nat.add_sub_cancel, ← drop_drop, value, drop_left]
  simp only [parseValueKey, size, value, decodeIndexValue_append, owner]
  simp [Nat.not_lt.mpr (by omega : 18 ≤ 9 + (scalarBytes c).length + 8), bind, Except.bind, pure,
    Except.pure]

@[simp] theorem parsePropKey_bytes (l k : UInt32) (c : Scalar) (n : UInt64)
    : parsePropKey (Key.prop l k c n).bytes = .ok (c, n) :=
  parseValueKey_append "p" c n (by simp)

@[simp] theorem parseRelPropKey_bytes (t k : UInt32) (c : Scalar) (e : UInt64)
    : parseRelPropKey (Key.relProp t k c e).bytes = .ok (c, e) :=
  parseValueKey_append "r" c e (by simp)

@[simp] theorem parsePropKeyNode_bytes (l k : UInt32) (c : Scalar) (n : UInt64)
    : parsePropKeyNode (Key.prop l k c n).bytes = .ok n := by
  have longer := scalarBytes_ne_nil c
  have size : (Key.prop l k c n).bytes.length = 17 + (scalarBytes c).length := by
    simp [Key.bytes, Key.body]
    omega
  have owner : (Key.prop l k c n).bytes.drop (17 + (scalarBytes c).length - 8) = uint64Bytes n := by
    rw [Key.bytes, Key.body, ← cons_append]
    exact drop_left' (by simp; omega)
  rw [parsePropKeyNode, size, owner, if_neg]
  · simp
  · simp only [Key.bytes, Key.tag, head?_cons, ne_eq, not_true_eq_false, or_false]
    omega

theorem propPrefix_eq (l k : UInt32) (c : Scalar)
    : propPrefix l k c.toVal = .ok (propIndexPrefix l k ++ scalarBytes c) := by
  simp [propPrefix, appendIndexValue, bind, Except.bind, pure, Except.pure]

theorem relPropPrefix_eq (t k : UInt32) (c : Scalar)
    : relPropPrefix t k c.toVal = .ok (relPropIndexPrefix t k ++ scalarBytes c) := by
  simp [relPropPrefix, appendIndexValue, bind, Except.bind, pure, Except.pure]

/-- A stem that starts with an index covers the keys of that index whose rest it covers. -/
theorem under_propIndex {l k : UInt32} {more : Bytes} {κ : Key}
    : under (propIndexPrefix l k ++ more) κ.bytes = true
      ↔ ∃ c n, κ = .prop l k c n ∧ more <+: scalarBytes c ++ uint64Bytes n := by
  rw [propIndexPrefix, cons_append, under_iff (i := 5) rfl]
  cases κ with
  | prop l' k' c n =>
    simp only [Key.table, Key.body, append_assoc, prefix32, true_and, Key.prop.injEq]
    constructor
    · rintro ⟨rfl, rfl, starts⟩
      exact ⟨c, n, ⟨rfl, rfl, rfl, rfl⟩, starts⟩
    · rintro ⟨c, n, ⟨rfl, rfl, rfl, rfl⟩, starts⟩
      exact ⟨rfl, rfl, starts⟩
  | forward d _ => cases d <;> simp [Key.table]
  | _ => simp [Key.table]

theorem under_relPropIndex {t k : UInt32} {more : Bytes} {κ : Key}
    : under (relPropIndexPrefix t k ++ more) κ.bytes = true
      ↔ ∃ c e, κ = .relProp t k c e ∧ more <+: scalarBytes c ++ uint64Bytes e := by
  rw [relPropIndexPrefix, cons_append, under_iff (i := 7) rfl]
  cases κ with
  | relProp t' k' c e =>
    simp only [Key.table, Key.body, append_assoc, prefix32, true_and, Key.relProp.injEq]
    constructor
    · rintro ⟨rfl, rfl, starts⟩
      exact ⟨c, e, ⟨rfl, rfl, rfl, rfl⟩, starts⟩
    · rintro ⟨c, e, ⟨rfl, rfl, rfl, rfl⟩, starts⟩
      exact ⟨rfl, rfl, starts⟩
  | forward d _ => cases d <;> simp [Key.table]
  | _ => simp [Key.table]

theorem under_propValue {l k : UInt32} {c : Scalar} {κ : Key}
    : under (propIndexPrefix l k ++ scalarBytes c) κ.bytes = true ↔ ∃ n, κ = .prop l k c n := by
  rw [under_propIndex]
  constructor
  · rintro ⟨d, n, rfl, starts⟩
    exact ⟨n, scalarBytes_starts.mp starts ▸ rfl⟩
  · rintro ⟨n, rfl⟩
    exact ⟨c, n, rfl, scalarBytes_starts.mpr rfl⟩

theorem under_relPropValue {t k : UInt32} {c : Scalar} {κ : Key}
    : under (relPropIndexPrefix t k ++ scalarBytes c) κ.bytes = true
      ↔ ∃ e, κ = .relProp t k c e := by
  rw [under_relPropIndex]
  constructor
  · rintro ⟨d, e, rfl, starts⟩
    exact ⟨e, scalarBytes_starts.mp starts ▸ rfl⟩
  · rintro ⟨e, rfl⟩
    exact ⟨c, e, rfl, scalarBytes_starts.mpr rfl⟩

theorem appendOrderedString_eq (s : Str)
    : appendOrderedString s = s.flatMap escaped ++ [strTerm, strTerm] := by
  induction s with
  | nil => rfl
  | cons c rest ih => rw [appendOrderedString_cons, ih, flatMap_cons, append_assoc]

theorem appendStringPrefix_eq (p : Str) : appendStringPrefix p = tagStr :: p.flatMap escaped := by
  rw [appendStringPrefix, appendOrderedString_eq]
  simp [dropLast_append_of_ne_nil]

/-- A zero byte of the start keeps its escape, so it never meets the terminator. -/
theorem escaped_prefix {p s : Str} {y : Bytes}
    : p.flatMap escaped <+: appendOrderedString s ++ y ↔ p <+: s := by
  induction p generalizing s with
  | nil => simp
  | cons c rest ih =>
    rw [flatMap_cons]
    cases s with
    | nil =>
      refine iff_of_false ?_ (by simp)
      rw [escaped, appendOrderedString]
      by_cases zero : c = strEsc
      · subst zero
        simp [cons_prefix_cons, strTerm, strEsc, strFF]
      · simp [cons_prefix_cons, strTerm]
        intro same
        exact absurd same zero
    | cons d more =>
      rw [appendOrderedString_cons, cons_prefix_cons, append_assoc]
      by_cases same : c = d
      · subst same
        rw [prefix_append_right_inj, ih]
        simp
      · simp [escaped, cons_prefix_cons, same]

theorem appendStringPrefix_prefix {p s : Str} {y : Bytes}
    : appendStringPrefix p <+: scalarBytes (.str s) ++ y ↔ p <+: s := by
  rw [appendStringPrefix_eq, scalarBytes, cons_append, cons_prefix_cons, escaped_prefix]
  simp

/-- Values are read back from the front of any buffer; stems with a value cover the entries of
exactly that value; keys are parsed into their parts; and the stem of a string's start covers
exactly the strings that start so.
-/
theorem index_keys_exact
    : (∀ (c : Scalar) (suffix : Bytes), ∃ enc, appendIndexValue c.toVal = .ok enc
        ∧ decodeIndexValue (enc ++ suffix) = .ok (c, enc.length))
      ∧ (∀ (l k l2 k2 : UInt32) (c d : Scalar) (n : UInt64), ∃ stem key,
        propPrefix l k c.toVal = .ok stem ∧ propKey l2 k2 d.toVal n = .ok key
        ∧ (stem <+: key ↔ l = l2 ∧ k = k2 ∧ c = d)
        ∧ parsePropKey key = .ok (d, n))
      ∧ (∀ (t k t2 k2 : UInt32) (c d : Scalar) (e : UInt64), ∃ stem key,
        relPropPrefix t k c.toVal = .ok stem ∧ relPropKey t2 k2 d.toVal e = .ok key
        ∧ (stem <+: key ↔ t = t2 ∧ k = k2 ∧ c = d)
        ∧ parseRelPropKey key = .ok (d, e))
      ∧ (∀ (p s : Str), ∃ enc, appendIndexValue (.str s) = .ok enc
        ∧ ∀ suffix, appendStringPrefix p <+: enc ++ suffix ↔ p <+: s) := by
  refine ⟨fun c suffix => ?_, fun l k l2 k2 c d n => ?_, fun t k t2 k2 c d e => ?_, fun p s => ?_⟩
  · refine ⟨scalarBytes c, ?_, decodeIndexValue_append c suffix⟩
    rw [appendIndexValue, Scalar.scalar?_toVal]
  · refine ⟨_, _, propPrefix_eq l k c, Key.propKey_eq l2 k2 d n, ?_, parsePropKey_bytes l2 k2 d n⟩
    rw [← List.isPrefixOf_iff_prefix]
    change under _ _ = true ↔ _
    rw [under_propValue]
    constructor
    · rintro ⟨m, same⟩
      cases same
      exact ⟨rfl, rfl, rfl⟩
    · rintro ⟨rfl, rfl, rfl⟩
      exact ⟨n, rfl⟩
  · refine ⟨_, _, relPropPrefix_eq t k c, Key.relPropKey_eq t2 k2 d e, ?_,
      parseRelPropKey_bytes t2 k2 d e⟩
    rw [← List.isPrefixOf_iff_prefix]
    change under _ _ = true ↔ _
    rw [under_relPropValue]
    constructor
    · rintro ⟨m, same⟩
      cases same
      exact ⟨rfl, rfl, rfl⟩
    · rintro ⟨rfl, rfl, rfl⟩
      exact ⟨e, rfl⟩
  · exact ⟨scalarBytes (.str s), rfl, fun suffix => appendStringPrefix_prefix⟩

end Intreccio.Graph
