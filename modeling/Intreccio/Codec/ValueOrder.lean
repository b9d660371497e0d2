import Intreccio.Codec.IndexValues
import Intreccio.Foundation.FloatOrder

/-! The encoding of indexed values keeps their order (`internal/storage/codec/value.go`).
The tag orders the kinds, and within a kind the bytes sort as the values do. As no encoding is a
prefix of another one, what follows the values in a key never matters.
-/

namespace Intreccio.Codec

open Words List

def band : Scalar → Nat
  | .null => 0
  | .bool _ => 1
  | .int _ => 2
  | .float _ => 3
  | .str _ => 4

/-- The order of indexed values: by band, then numbers by value with -0 just below 0, and strings
byte by byte.
-/
def Below (a b : Scalar) : Prop :=
  match a, b with
  | .bool x, .bool y => x = false ∧ y = true
  | .int x, .int y => x.toInt < y.toInt
  | .float x, .float y => x.lt y = true ∨ (x = .zero true ∧ y = .zero false)
  | .str x, .str y => x < y
  | a, b => band a < band b

def NotNaN : Scalar → Prop
  | .float f => f.isNaN = false
  | _ => True

theorem toNat_intBits (i : Int64) : ((intBits i).toNat : Int) = i.toInt + 2 ^ 63 := by
  have bound := i.toUInt64.toNat_lt
  rw [intBits, toNat_xor_topBit, toInt_eq_toNat]
  split <;> omega

theorem intBits_lt {x y : Int64} : intBits x < intBits y ↔ x.toInt < y.toInt := by
  have left := toNat_intBits x
  have right := toNat_intBits y
  rw [UInt64.lt_iff_toNat_lt]
  omega

theorem toNat_floatBits (f : Binary64)
    : (floatBits f).toNat
      = if f.negative then 2 ^ 63 - 1 - f.magnitudeBits else 2 ^ 63 + f.magnitudeBits := by
  have bits := f.toNat_bits
  have bound := f.magnitudeBits_lt
  by_cases top : f.bits &&& topBit ≠ 0
  · have sign : f.negative = true := decide_eq_true ((topBit_set_iff _).mp top)
    rw [sign, if_pos rfl] at bits
    rw [floatBits, if_pos top, sign, if_pos rfl, toNat_complement, bits]
    omega
  · have low := mt (topBit_set_iff _).mpr top
    have sign : f.negative = false := decide_eq_false low
    rw [sign, if_neg Bool.false_ne_true] at bits
    rw [floatBits, if_neg top, sign, if_neg Bool.false_ne_true, toNat_or_topBit (by omega), bits]
    omega

theorem floatBits_lt {x y : Binary64} (left : x.isNaN = false) (right : y.isNaN = false)
    : floatBits x < floatBits y ↔ x.lt y = true ∨ (x = .zero true ∧ y = .zero false) := by
  have small := x.magnitudeBits_lt
  have small' := y.magnitudeBits_lt
  rw [UInt64.lt_iff_toNat_lt, toNat_floatBits, toNat_floatBits, Binary64.lt_iff_rank left right,
    Binary64.eq_zero_iff, Binary64.eq_zero_iff, Binary64.rank, Binary64.rank]
  cases x.negative <;> cases y.negative <;>
    simp only [Bool.false_eq_true, if_true, if_false, reduceCtorEq, false_and, and_false, true_and,
      or_false] <;> omega

def escaped (c : UInt8) : Bytes := c :: if c = strEsc then [strFF] else []

theorem appendOrderedString_cons (c : UInt8) (rest : Str)
    : appendOrderedString (c :: rest) = escaped c ++ appendOrderedString rest := by
  rw [appendOrderedString, escaped]
  by_cases zero : c = strEsc
  · subst zero
    rfl
  · rw [if_neg zero, if_neg zero]
    rfl

theorem terminator_lt (d : UInt8) (rest : Bytes) : [strTerm, strTerm] < escaped d ++ rest := by
  rw [escaped, cons_append, cons_lt_cons_iff]
  by_cases zero : d = strEsc
  · subst zero
    exact Or.inr ⟨rfl, cons_lt_cons_iff.mpr (Or.inl (by decide))⟩
  · refine Or.inl (lt_of_le_of_ne ?_ (Ne.symm zero))
    rw [UInt8.le_iff_toNat_le]
    exact Nat.zero_le _

/-- A string sorts below its extensions: the terminator is below every byte that may follow, and an
escaped zero is still the smallest byte.
-/
theorem appendOrderedString_lt {s t : Str} : appendOrderedString s < appendOrderedString t ↔ s < t := by
  induction s generalizing t with
  | nil =>
    cases t with
    | nil => simp
    | cons d more =>
      rw [appendOrderedString_cons]
      exact iff_of_true (terminator_lt d _) (nil_lt_cons d more)
  | cons c rest ih =>
    rw [appendOrderedString_cons]
    cases t with
    | nil => exact iff_of_false (lt_asymm (terminator_lt c _)) (not_lt_nil _)
    | cons d more =>
      rw [appendOrderedString_cons, cons_lt_cons_iff]
      by_cases same : c = d
      · subst same
        simp [append_lt_append_left, ih]
      · simp [escaped, cons_lt_cons_iff, same]

theorem scalarBytes_tag (c : Scalar) : ∃ body, scalarBytes c = UInt8.ofNat (band c) :: body := by
  cases c <;> exact ⟨_, rfl⟩

variable {a b : Scalar}

/-- Tags decide between the bands. -/
theorem scalarBytes_lt_of_band (apart : band a ≠ band b)
    : scalarBytes a < scalarBytes b ↔ band a < band b := by
  obtain ⟨x, left⟩ := scalarBytes_tag a
  obtain ⟨y, right⟩ := scalarBytes_tag b
  have small : ∀ c, band c < 256 := by
    intro c
    cases c <;> simp [band]
  rw [left, right, cons_lt_cons_iff, UInt8.lt_iff_toNat_lt, ← UInt8.toNat_inj,
    UInt8.toNat_ofNat_of_lt' (small a), UInt8.toNat_ofNat_of_lt' (small b)]
  simp only [apart, false_and, or_false]

theorem scalarBytes_lt (left : NotNaN a) (right : NotNaN b) : scalarBytes a < scalarBytes b ↔ Below a b := by
  cases a <;> cases b
  case null.null => exact iff_of_false (lt_irrefl _) (lt_irrefl _)
  case bool.bool x y => cases x <;> cases y <;> simp [scalarBytes, Below] <;> decide
  case int.int x y => simp [scalarBytes, Below, intBits_lt]
  case float.float x y => simp [scalarBytes, Below, floatBits_lt left right]
  case str.str x y => simp [scalarBytes, Below, appendOrderedString_lt]
  all_goals exact scalarBytes_lt_of_band (by simp [band])

theorem scalarBytes_starts {y : Bytes} : scalarBytes a <+: scalarBytes b ++ y ↔ a = b := by
  constructor
  · rintro ⟨x, same⟩
    exact (scalarBytes_append_inj.mp same).1
  · rintro rfl
    exact prefix_append _ _

theorem scalarBytes_append_lt (differ : a ≠ b) (x y : Bytes)
    : scalarBytes a ++ x < scalarBytes b ++ y ↔ scalarBytes a < scalarBytes b := by
  have apart : ∀ {c d : Scalar}, c ≠ d → ¬ scalarBytes c <+: scalarBytes d := by
    intro c d different starts
    rw [← append_nil (scalarBytes d)] at starts
    exact different (scalarBytes_starts.mp starts)
  rcases lt_trichotomy (scalarBytes a) (scalarBytes b) with below | same | above
  · exact iff_of_true (append_lt_append_of_lt x y below (apart differ)) below
  · exact absurd (scalarBytes_inj.mp same) differ
  · exact iff_of_false (lt_asymm (append_lt_append_of_lt y x above (apart differ.symm))) (lt_asymm above)

/-- The encoding preserves the order of the values, whatever follows them. -/
theorem appendIndexValue_order (a b : Scalar) (left : NotNaN a) (right : NotNaN b)
    : ∃ ea eb, appendIndexValue a.toVal = .ok ea ∧ appendIndexValue b.toVal = .ok eb
      ∧ (ea < eb ↔ Below a b)
      ∧ (a ≠ b → ∀ x y, ea ++ x < eb ++ y ↔ Below a b) := by
  refine ⟨scalarBytes a, scalarBytes b, ?_, ?_, scalarBytes_lt left right, ?_⟩
  · rw [appendIndexValue, Scalar.scalar?_toVal]
  · rw [appendIndexValue, Scalar.scalar?_toVal]
  · intro differ x y
    rw [scalarBytes_append_lt differ, scalarBytes_lt left right]

/-- The two zeros are neighbours in the order, whatever follows them. -/
theorem appendIndexValue_order_zeros
    : ∃ ea eb, appendIndexValue (.float (.zero true)) = .ok ea
      ∧ appendIndexValue (.float (.zero false)) = .ok eb
      ∧ (ea < eb ↔ Below (.float (.zero true)) (.float (.zero false)))
      ∧ (Scalar.float (.zero true) ≠ .float (.zero false)
          → ∀ x y, ea ++ x < eb ++ y ↔ Below (.float (.zero true)) (.float (.zero false))) :=
  appendIndexValue_order (.float (.zero true)) (.float (.zero false)) rfl rfl

end Intreccio.Codec
