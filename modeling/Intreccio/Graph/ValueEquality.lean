import Intreccio.Codec.ValueOrder
import Intreccio.Foundation.FloatRounding
import Intreccio.Graph.Invariants
import Intreccio.Graph.Lookups

/-! Query equality next to the keys built from values (`internal/graph/values.go`, `unique.go`).
Both convert between integers and floats, one by rounding the integer and the other by reading the
float as an integer; they agree wherever the integer has a float of the same value.
-/

namespace Intreccio.Graph

open Kv Words Codec Binary64

theorem inRange_toInt (i : Int64) : InRange i.toInt := by
  have low := i.le_toInt
  have high := i.toInt_lt
  unfold InRange
  omega

theorem finite_floatOf (i : Int64) : (floatOf i).Finite := finite_ofInt (inRange_toInt i)

theorem floatOf_not_nan (i : Int64) : (floatOf i).isNaN = false := (finite_floatOf i).not_nan

theorem finite_of_scaled {f g : Binary64} (finite : g.Finite) (same : f.scaled = g.scaled) : f.Finite := by
  have size := congrArg Int.natAbs same
  rw [natAbs_scaled, natAbs_scaled, spread_inj] at size
  rw [Binary64.Finite, size]
  exact finite

variable {f : Binary64}

theorem finite_of_integer {i : Int64} (value : f.scaled = i.toInt * unit) : f.Finite := by
  have exact : Exact i.toInt := exact_of_value (inRange_toInt i) value
  exact finite_of_scaled (finite_floatOf i) (value.trans exact.symm)

/-- A float becomes an integer exactly when it has the integer's value. -/
theorem uniqueValue_float_int {i : Int64}
    : uniqueValue (.float f) = some (.int i) ↔ f.scaled = i.toInt * unit := by
  have low := i.le_toInt
  have high := i.toInt_lt
  constructor
  · intro canon
    simp only [uniqueValue] at canon
    split at canon
    · cases canon
    · split at canon
      case isTrue whole =>
        have same : Int64.ofInt f.truncate = i := by simpa using canon
        rw [scaled_of_isInteger whole.1, ← same, Int64.toInt_ofInt_of_le whole.2.1 whole.2.2]
      case isFalse => simp at canon
  · intro value
    have finite := finite_of_integer value
    obtain ⟨whole, truncated⟩ := isInteger_of_scaled finite value
    rw [uniqueValue, if_neg (by simp [finite.not_nan]), if_pos ⟨whole, by omega, by omega⟩,
      truncated, Int64.ofInt_toInt]

theorem uniqueValue_float_self (number : f.isNaN = false)
    (fraction : ∀ i : Int64, f.scaled ≠ i.toInt * unit)
    : uniqueValue (.float f) = some (.float f) := by
  rw [uniqueValue, if_neg (by simp [number]), if_neg]
  rintro ⟨whole, low, high⟩
  apply fraction (Int64.ofInt f.truncate)
  rw [Int64.toInt_ofInt_of_le low high]
  exact scaled_of_isInteger whole

theorem uniqueValue_float_cases {d : Scalar} (canon : uniqueValue (.float f) = some d)
    : (∃ i : Int64, d = .int i ∧ f.scaled = i.toInt * unit) ∨ d = .float f := by
  by_cases whole : ∃ i : Int64, f.scaled = i.toInt * unit
  · obtain ⟨i, value⟩ := whole
    rw [uniqueValue_float_int.mpr value, Option.some.injEq] at canon
    exact Or.inl ⟨i, canon.symm, value⟩
  · have number : f.isNaN = false := by
      by_contra nan
      simp [uniqueValue, Bool.eq_true_of_not_eq_false nan] at canon
    rw [uniqueValue_float_self number (fun i value => whole ⟨i, value⟩), Option.some.injEq] at canon
    exact Or.inr canon.symm

/-- The values that may equal another one: neither null nor NaN. -/
def Comparable : Scalar → Prop
  | .null => False
  | .float f => f.isNaN = false
  | _ => True

/-- The canonical forms of both values have the same owner key. -/
def SharesOwnerKey (a b : Scalar) : Prop :=
  ∃ ca cb, uniqueValue a = some ca ∧ uniqueValue b = some cb
    ∧ ∀ l k, ∃ key, uniqueKey l k ca.toVal = .ok key ∧ uniqueKey l k cb.toVal = .ok key

/-- An integer next to the float it rounds to has exactly that value. -/
def ExactPair : Scalar → Scalar → Prop
  | .int i, .float f => (floatOf i).eq f = true → Exact i.toInt
  | .float f, .int i => f.eq (floatOf i) = true → Exact i.toInt
  | _, _ => True

variable {a b : Scalar}

theorem sharesOwnerKey_iff : SharesOwnerKey a b ↔ ∃ d, uniqueValue a = some d ∧ uniqueValue b = some d := by
  constructor
  · rintro ⟨ca, cb, left, right, same⟩
    obtain ⟨key, made, made'⟩ := same 0 0
    rw [Key.uniqueKey_eq, Except.ok.injEq] at made made'
    obtain rfl : ca = cb := by simpa using made.trans made'.symm
    exact ⟨ca, left, right⟩
  · rintro ⟨d, left, right⟩
    exact ⟨d, d, left, right, fun l k => ⟨_, Key.uniqueKey_eq l k d, Key.uniqueKey_eq l k d⟩⟩

theorem float_float {f g : Binary64} (left : f.isNaN = false) (right : g.isNaN = false)
    : f.eq g = true ↔ SharesOwnerKey (.float f) (.float g) := by
  rw [eq_iff left right, sharesOwnerKey_iff]
  constructor
  · intro same
    by_cases whole : ∃ i : Int64, f.scaled = i.toInt * unit
    · obtain ⟨i, value⟩ := whole
      exact ⟨.int i, uniqueValue_float_int.mpr value, uniqueValue_float_int.mpr (same ▸ value)⟩
    · have fraction : ∀ i : Int64, f.scaled ≠ i.toInt * unit := fun i value => whole ⟨i, value⟩
      have equal : f = g := by
        rcases rank_eq_iff.mp (rank_eq_rank.mpr same) with equal | ⟨zero, _⟩
        · exact equal
        · refine absurd ?_ (fraction 0)
          rw [scaled_eq, isZero_iff.mp zero]
          generalize unit = u
          simp
      subst equal
      exact ⟨.float f, uniqueValue_float_self left fraction, uniqueValue_float_self left fraction⟩
  · rintro ⟨d, canon, canon'⟩
    rcases uniqueValue_float_cases canon with ⟨i, rfl, value⟩ | rfl
    · exact value.trans (uniqueValue_float_int.mp canon').symm
    · rcases uniqueValue_float_cases canon' with ⟨j, other, _⟩ | equal
      · cases other
      · rw [Scalar.float.inj equal]

/-- Only an exact integer shares its key with a float. -/
theorem int_float {i : Int64} (number : f.isNaN = false)
    : ((floatOf i).eq f = true ↔ SharesOwnerKey (.int i) (.float f))
      ↔ ((floatOf i).eq f = true → Exact i.toInt) := by
  have shares : SharesOwnerKey (.int i) (.float f) ↔ f.scaled = i.toInt * unit := by
    rw [sharesOwnerKey_iff, ← uniqueValue_float_int]
    simp [uniqueValue]
  rw [shares, eq_iff (floatOf_not_nan i) number]
  constructor
  · intro agree equal
    exact exact_of_value (inRange_toInt i) (agree.mp equal)
  · intro exact
    constructor
    · intro equal
      exact equal.symm.trans (exact equal)
    · intro value
      exact (exact_of_value (inRange_toInt i) value : (floatOf i).scaled = _).trans value.symm

theorem sharesOwnerKey_comm : SharesOwnerKey a b ↔ SharesOwnerKey b a := by
  rw [sharesOwnerKey_iff, sharesOwnerKey_iff]
  exact exists_congr (fun d => and_comm)

theorem not_shares_float {b : Scalar} (plain : uniqueValue b = some b)
    (kind : band b ≠ 2 ∧ band b ≠ 3)
    : ¬ SharesOwnerKey (.float f) b := by
  rw [sharesOwnerKey_iff, plain]
  rintro ⟨d, canon, same⟩
  obtain rfl := Option.some.inj same
  rcases uniqueValue_float_cases canon with ⟨i, rfl, _⟩ | rfl
  · exact kind.1 rfl
  · exact kind.2 rfl

/-- Query equality and owner keys agree on exactly the pairs in which an integer that equals a
float has the float's value.
-/
theorem queryEqual_iff_shares (left : Comparable a) (right : Comparable b)
    : (queryEqual a.toVal b.toVal = true ↔ SharesOwnerKey a b) ↔ ExactPair a b := by
  cases a <;> cases b
  case int.float i f => exact int_float right
  case float.int f i =>
    have turned : f.eq (floatOf i) = (floatOf i).eq f := Binary64.eq_comm
    rw [sharesOwnerKey_comm]
    change (f.eq (floatOf i) = true ↔ _) ↔ (f.eq (floatOf i) = true → _)
    rw [turned]
    exact int_float left
  case float.float f g => exact iff_of_true (float_float left right) trivial
  case float.bool | float.str =>
    exact iff_of_true (iff_of_false (by simp [queryEqual, normalize, Scalar.toVal])
      (not_shares_float rfl (by simp [band]))) trivial
  case bool.float | str.float =>
    rw [sharesOwnerKey_comm]
    exact iff_of_true (iff_of_false (by simp [queryEqual, normalize, Scalar.toVal])
      (not_shares_float rfl (by simp [band]))) trivial
  case bool.bool | int.int | str.str =>
    simp [queryEqual, normalize, Scalar.toVal, sharesOwnerKey_iff, uniqueValue, ExactPair, eq_comm]
  case bool.int | bool.str | int.bool | int.str | str.bool | str.int =>
    simp [queryEqual, normalize, Scalar.toVal, sharesOwnerKey_iff, uniqueValue, ExactPair]
  case null.null | null.bool | null.int | null.float | null.str => exact absurd left id
  case bool.null | int.null | float.null | str.null => exact absurd right id

theorem comparable_of_equal (equal : queryEqual a.toVal b.toVal = true) : Comparable a := by
  cases a <;> cases b <;> simp_all [queryEqual, normalize, Scalar.toVal, Comparable, Binary64.eq]

/-- Query equality and owner keys agree on a pair of values exactly if an integer in it that equals
the other value's float is exact. Under a constraint then one node at most matches an equality
lookup among those whose values are exact next to it.
-/
theorem queryEqual_agrees_iff (a b : Scalar) (left : Comparable a) (right : Comparable b)
    : ((queryEqual a.toVal b.toVal = true ↔ SharesOwnerKey a b) ↔ ExactPair a b)
      ∧ ∀ s l k, UniqueOwnership s → Constrained s l k → ∀ m n c, Carries s m l k a
        → Carries s n l k c → queryEqual a.toVal b.toVal = true → queryEqual c.toVal b.toVal = true
        → ExactPair a b → ExactPair c b → m = n := by
  refine ⟨queryEqual_iff_shares left right, ?_⟩
  intro s l k owned constrained m n c carried carried' equal equal' exact exact'
  have shared := ((queryEqual_iff_shares left right).mpr exact).mp equal
  have shared' := ((queryEqual_iff_shares (comparable_of_equal equal') right).mpr exact').mp equal'
  obtain ⟨d, canon, target⟩ := sharesOwnerKey_iff.mp shared
  obtain ⟨d', canon', target'⟩ := sharesOwnerKey_iff.mp shared'
  obtain rfl := Option.some.inj (target.symm.trans target')
  exact owned.distinct l k constrained m n _ (owns_iff.mpr ⟨a, d, carried, canon, rfl⟩)
    (owns_iff.mpr ⟨c, d, carried', canon', rfl⟩)

/-- `2 ^ 53 + 1`, which no float holds. -/
def oddInteger : Scalar := .int 9007199254740993

/-- `2 ^ 53` as a float. -/
def roundedFloat : Scalar := .float ⟨0x4340000000000000⟩

theorem queryEqual_agrees_iff_rounded
    : Comparable oddInteger ∧ Comparable roundedFloat
      ∧ ((queryEqual oddInteger.toVal roundedFloat.toVal = true
          ↔ SharesOwnerKey oddInteger roundedFloat) ↔ ExactPair oddInteger roundedFloat) :=
  ⟨trivial, rfl, (queryEqual_agrees_iff oddInteger roundedFloat trivial rfl).1⟩

/-- The integer equals the float it rounds to, and has another owner key. -/
theorem not_queryEqual_agrees
    : ¬ ∀ a b, Comparable a → Comparable b
        → (queryEqual a.toVal b.toVal = true ↔ SharesOwnerKey a b) := by
  intro always
  have equal : queryEqual oddInteger.toVal roundedFloat.toVal = true := by decide +kernel
  obtain ⟨d, canon, canon'⟩ :=
    sharesOwnerKey_iff.mp ((always oddInteger roundedFloat trivial rfl).mp equal)
  have differ : uniqueValue oddInteger ≠ uniqueValue roundedFloat := by decide +kernel
  exact differ (canon.trans canon'.symm)

end Intreccio.Graph
