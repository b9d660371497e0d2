import Mathlib.Order.Monotone.Basic
import Mathlib.Tactic.Linarith
import Mathlib.Tactic.Ring
import Intreccio.Foundation.FloatArithmetic

/-! The order of binary64 numbers is the order of the values they stand for.
A finite value is an integer number of units, and the bits without the sign count these values
upwards, so ranks compare as values do.
-/

namespace Binary64

theorem magnitudeBits_lt (f : Binary64) : f.magnitudeBits < 2 ^ 63 :=
  Nat.mod_lt _ (by decide)

theorem toNat_bits (f : Binary64) : f.bits.toNat = (if f.negative then 2 ^ 63 else 0) + f.magnitudeBits := by
  have bound := f.bits.toNat_lt
  by_cases sign : 2 ^ 63 ≤ f.bits.toNat
  · simp only [negative, magnitudeBits, sign, decide_true, if_true]
    omega
  · simp only [negative, magnitudeBits, sign, decide_false, Bool.false_eq_true, if_false]
    omega

theorem ext_sign {f g : Binary64} (sign : f.negative = g.negative)
    (size : f.magnitudeBits = g.magnitudeBits)
    : f = g := by
  obtain ⟨u⟩ := f
  obtain ⟨v⟩ := g
  congr 1
  apply UInt64.toNat_inj.mp
  have left := toNat_bits ⟨u⟩
  have right := toNat_bits ⟨v⟩
  rw [sign, size] at left
  exact left.trans right.symm

variable {bits : Nat} {sign : Bool}

theorem toNat_ofMagnitude (small : bits < 2 ^ 63)
    : (ofMagnitude sign bits).bits.toNat = if sign then 2 ^ 63 + bits else bits := by
  cases sign with
  | false => exact UInt64.toNat_ofNat_of_lt' (by change bits < 2 ^ 64; omega)
  | true => exact UInt64.toNat_ofNat_of_lt' (by change 2 ^ 63 + bits < 2 ^ 64; omega)

theorem negative_ofMagnitude (small : bits < 2 ^ 63) : (ofMagnitude sign bits).negative = sign := by
  rw [negative, toNat_ofMagnitude small]
  cases sign with
  | false => simpa using small
  | true => simp

theorem magnitudeBits_ofMagnitude (small : bits < 2 ^ 63) : (ofMagnitude sign bits).magnitudeBits = bits := by
  rw [magnitudeBits, toNat_ofMagnitude small]
  cases sign with
  | false => simpa using Nat.mod_eq_of_lt small
  | true => simpa using Nat.mod_eq_of_lt small

@[simp] theorem negative_zero (sign : Bool) : (zero sign).negative = sign :=
  negative_ofMagnitude (by decide)

@[simp] theorem magnitudeBits_zero (sign : Bool) : (zero sign).magnitudeBits = 0 :=
  magnitudeBits_ofMagnitude (by decide)

@[simp] theorem negative_inf (sign : Bool) : (inf sign).negative = sign :=
  negative_ofMagnitude (by decide)

@[simp] theorem magnitudeBits_inf (sign : Bool) : (inf sign).magnitudeBits = infBits :=
  magnitudeBits_ofMagnitude (by decide)

variable {f : Binary64}

theorem eq_zero_iff : f = zero sign ↔ f.negative = sign ∧ f.magnitudeBits = 0 := by
  constructor
  · rintro rfl
    exact ⟨negative_zero sign, magnitudeBits_zero sign⟩
  · rintro ⟨same, null⟩
    exact ext_sign (by rw [same, negative_zero]) (by rw [null, magnitudeBits_zero])

theorem exponent_eq (f : Binary64) : f.exponent = f.magnitudeBits / 2 ^ 52 := by
  have bound := f.bits.toNat_lt
  simp only [exponent, magnitudeBits]
  omega

theorem fraction_eq (f : Binary64) : f.fraction = f.magnitudeBits % 2 ^ 52 := by
  simp only [fraction, magnitudeBits]
  omega

theorem isNaN_iff : f.isNaN = true ↔ infBits < f.magnitudeBits := by
  have bound := f.magnitudeBits_lt
  simp only [isNaN, exponent_eq, fraction_eq, infBits, decide_eq_true_eq]
  omega

theorem isInf_iff : f.isInf = true ↔ f.magnitudeBits = infBits := by
  have bound := f.magnitudeBits_lt
  simp only [isInf, exponent_eq, fraction_eq, infBits, decide_eq_true_eq]
  omega

theorem isZero_iff : f.isZero = true ↔ f.magnitudeBits = 0 := by
  simp [isZero]

def Finite (f : Binary64) : Prop := f.magnitudeBits < infBits

theorem Finite.not_nan (finite : f.Finite) : f.isNaN = false := by
  rw [← Bool.not_eq_true, isNaN_iff]
  exact Nat.not_lt.mpr (Nat.le_of_lt finite)

theorem Finite.not_inf (finite : f.Finite) : f.isInf = false := by
  rw [← Bool.not_eq_true, isInf_iff]
  exact Nat.ne_of_lt finite

theorem finite_of (number : f.isNaN = false) (bounded : f.isInf = false) : f.Finite := by
  rw [← Bool.not_eq_true, isNaN_iff] at number
  rw [← Bool.not_eq_true, isInf_iff] at bounded
  exact Nat.lt_of_le_of_ne (Nat.not_lt.mp number) bounded

/-- The number of units that the bits without the sign stand for. -/
def spread (bits : Nat) : Nat :=
  (if bits / 2 ^ 52 = 0 then bits % 2 ^ 52 else 2 ^ 52 + bits % 2 ^ 52) * 2 ^ (bits / 2 ^ 52 - 1)

theorem significand_mul_shift (f : Binary64) : f.significand * 2 ^ f.shift = spread f.magnitudeBits := by
  simp only [significand, shift, exponent_eq, fraction_eq, spread]

theorem scaled_eq (f : Binary64)
    : f.scaled = if f.negative then -(spread f.magnitudeBits : Int) else spread f.magnitudeBits := by
  simp only [scaled, significand_mul_shift]

theorem natAbs_scaled (f : Binary64) : f.scaled.natAbs = spread f.magnitudeBits := by
  rw [scaled_eq]
  split <;> omega

@[simp] theorem spread_zero : spread 0 = 0 := by simp [spread]

/-- A significand with its exponent; a full significand is the first one of the next exponent. -/
theorem spread_of_fields {e s : Nat} (low : 2 ^ 52 ≤ s) (high : s ≤ 2 ^ 53)
    : spread (e * 2 ^ 52 + s) = s * 2 ^ e := by
  rcases Nat.lt_or_ge s (2 ^ 53) with below | full
  · have exponent : (e * 2 ^ 52 + s) / 2 ^ 52 = e + 1 := by omega
    have fraction : 2 ^ 52 + (e * 2 ^ 52 + s) % 2 ^ 52 = s := by omega
    rw [spread, exponent, if_neg (Nat.succ_ne_zero e), fraction, Nat.add_sub_cancel]
  · obtain rfl : s = 2 ^ 53 := Nat.le_antisymm high full
    have exponent : (e * 2 ^ 52 + 2 ^ 53) / 2 ^ 52 = e + 2 := by omega
    have fraction : (e * 2 ^ 52 + 2 ^ 53) % 2 ^ 52 = 0 := by omega
    rw [spread, exponent, if_neg (Nat.succ_ne_zero _), fraction, Nat.add_zero,
      show e + 2 - 1 = e + 1 from rfl, pow_succ 2 e]
    ring

theorem spread_subnormal (small : bits ≤ 2 ^ 52) : spread bits = bits := by
  rcases Nat.lt_or_ge bits (2 ^ 52) with below | full
  · rw [spread, Nat.div_eq_of_lt below, Nat.mod_eq_of_lt below]
    simp
  · obtain rfl : bits = 2 ^ 52 := Nat.le_antisymm small full
    simpa using spread_of_fields (e := 0) (s := 2 ^ 52) le_rfl (by decide)

/-- Larger bits stand for larger values.
Witness: within one exponent the significand grows, and its end is the next exponent's start.
-/
theorem spread_strictMono : StrictMono spread := by
  refine strictMono_nat_of_lt_succ (fun bits => ?_)
  rcases Nat.lt_or_ge bits (2 ^ 52) with small | normal
  · rw [spread_subnormal small.le, spread_subnormal small]
    exact Nat.lt_succ_self bits
  · obtain ⟨e, s, low, high, rfl⟩
        : ∃ e s, 2 ^ 52 ≤ s ∧ s < 2 ^ 53 ∧ bits = e * 2 ^ 52 + s :=
      ⟨bits / 2 ^ 52 - 1, 2 ^ 52 + bits % 2 ^ 52, by omega, by omega, by omega⟩
    rw [spread_of_fields low high.le, Nat.add_assoc, spread_of_fields (by omega) (by omega)]
    exact Nat.mul_lt_mul_of_pos_right (Nat.lt_succ_self s) (Nat.two_pow_pos e)

theorem spread_lt {m n : Nat} : spread m < spread n ↔ m < n := spread_strictMono.lt_iff_lt

theorem spread_le {m n : Nat} : spread m ≤ spread n ↔ m ≤ n := spread_strictMono.le_iff_le

theorem spread_inj {m n : Nat} : spread m = spread n ↔ m = n := spread_strictMono.injective.eq_iff

theorem rank_lt_rank {f g : Binary64} : f.rank < g.rank ↔ f.scaled < g.scaled := by
  have same := spread_lt (m := f.magnitudeBits) (n := g.magnitudeBits)
  have back := spread_lt (m := g.magnitudeBits) (n := f.magnitudeBits)
  have low := spread_le (m := 0) (n := f.magnitudeBits)
  have zero := spread_inj (m := f.magnitudeBits) (n := 0)
  have zero' := spread_inj (m := g.magnitudeBits) (n := 0)
  rw [spread_zero] at zero zero'
  rw [rank, rank, scaled_eq, scaled_eq]
  split <;> split <;> omega

theorem rank_le_rank {f g : Binary64} : f.rank ≤ g.rank ↔ f.scaled ≤ g.scaled := by
  rw [← Int.not_lt, ← Int.not_lt, rank_lt_rank]

theorem rank_eq_rank {f g : Binary64} : f.rank = g.rank ↔ f.scaled = g.scaled := by
  rw [Int.le_antisymm_iff, Int.le_antisymm_iff, rank_le_rank, rank_le_rank]

theorem lt_iff_rank {f g : Binary64} (left : f.isNaN = false) (right : g.isNaN = false)
    : f.lt g = true ↔ f.rank < g.rank := by
  simp [lt, left, right]

theorem le_iff {f g : Binary64} (left : f.isNaN = false) (right : g.isNaN = false)
    : f.le g = true ↔ f.scaled ≤ g.scaled := by
  simp [le, left, right, rank_le_rank]

theorem eq_iff {f g : Binary64} (left : f.isNaN = false) (right : g.isNaN = false)
    : f.eq g = true ↔ f.scaled = g.scaled := by
  simp [eq, left, right, rank_eq_rank]

protected theorem eq_comm {f g : Binary64} : f.eq g = g.eq f := by
  simp only [Binary64.eq, Bool.and_comm (!f.isNaN), eq_comm (a := f.rank)]

/-- Equal ranks are equal bits, but for the two zeros. -/
theorem rank_eq_iff {f g : Binary64} : f.rank = g.rank ↔ f = g ∨ (f.isZero = true ∧ g.isZero = true) := by
  rw [isZero_iff, isZero_iff]
  constructor
  · intro same
    by_cases zero : f.magnitudeBits = 0
    · refine Or.inr ⟨zero, ?_⟩
      simp only [rank, zero] at same
      split at same <;> split at same <;> omega
    · refine Or.inl (ext_sign ?_ ?_)
      · cases hf : f.negative <;> cases hg : g.negative <;> simp only [rank, hf, hg] at same <;>
          first | rfl | (simp at same; omega)
      · simp only [rank] at same
        split at same <;> split at same <;> omega
  · rintro (rfl | ⟨left, right⟩)
    · rfl
    · simp [rank, left, right]

theorem eq_iff_of_nonzero {f g : Binary64} (number : g.isNaN = false) (nonzero : g.isZero = false)
    : f.eq g = true ↔ f = g := by
  constructor
  · intro equal
    simp only [Binary64.eq, Bool.and_eq_true, decide_eq_true_eq] at equal
    rcases rank_eq_iff.mp equal.2 with same | ⟨_, zero⟩
    · exact same
    · simp [nonzero] at zero
  · rintro rfl
    rw [eq_iff number number]

theorem isZero_cases : f.isZero = true ↔ f = zero false ∨ f = zero true := by
  rw [isZero_iff, eq_zero_iff, eq_zero_iff]
  cases f.negative <;> simp

theorem isNaN_of_isZero (zero : f.isZero = true) : f.isNaN = false := by
  rw [← Bool.not_eq_true, isNaN_iff, isZero_iff.mp zero]
  decide

theorem eq_iff_of_zero {f g : Binary64} (null : g.isZero = true)
    : f.eq g = true ↔ f = zero false ∨ f = zero true := by
  rw [← isZero_cases]
  constructor
  · intro equal
    simp only [Binary64.eq, Bool.and_eq_true, decide_eq_true_eq] at equal
    rcases rank_eq_iff.mp equal.2 with rfl | ⟨same, _⟩
    · exact null
    · exact same
  · intro same
    simp [Binary64.eq, isNaN_of_isZero null, isNaN_of_isZero same, rank_eq_iff, null, same]

theorem rank_ofMagnitude (small : bits < 2 ^ 63)
    : (ofMagnitude sign bits).rank = if sign then -(bits : Int) else bits := by
  rw [rank, negative_ofMagnitude small, magnitudeBits_ofMagnitude small]

theorem not_nan_ofMagnitude (small : bits ≤ infBits) : (ofMagnitude sign bits).isNaN = false := by
  have room : infBits < 2 ^ 63 := by decide
  rw [← Bool.not_eq_true, isNaN_iff, magnitudeBits_ofMagnitude (small.trans_lt room)]
  exact Nat.not_lt.mpr small

theorem not_nan_inf (sign : Bool) : (inf sign).isNaN = false := not_nan_ofMagnitude le_rfl

theorem rank_inf (sign : Bool) : (inf sign).rank = if sign then -(infBits : Int) else infBits :=
  rank_ofMagnitude (by decide)

theorem magnitudeBits_le (number : f.isNaN = false) : f.magnitudeBits ≤ infBits := by
  rw [← Bool.not_eq_true, isNaN_iff] at number
  exact Nat.not_lt.mp number

theorem isZero_inf (sign : Bool) : (inf sign).isZero = false := by
  rw [← Bool.not_eq_true, isZero_iff, magnitudeBits_inf]
  decide

/-- The neighbour in a direction: one bit further, across zero if need be. -/
theorem nextafter_inf (number : f.isNaN = false) (inner : f ≠ inf sign)
    : f.nextafter (inf sign)
      = if f.isZero then ofMagnitude sign 1
        else if f.negative = sign then ofMagnitude f.negative (f.magnitudeBits + 1)
        else ofMagnitude f.negative (f.magnitudeBits - 1) := by
  have apart : f.eq (inf sign) = false := by
    rw [← Bool.not_eq_true, eq_iff_of_nonzero (not_nan_inf sign) (isZero_inf sign)]
    exact inner
  have below : (inf sign).lt f = sign := by
    have bits := magnitudeBits_le number
    rw [Bool.eq_iff_iff, lt_iff_rank (not_nan_inf sign) number, rank_inf, rank]
    cases sign with
    | false =>
      simp only [Bool.false_eq_true, if_false, iff_false]
      split <;> omega
    | true =>
      refine iff_of_true ?_ rfl
      have lower : ¬ (f.negative = true ∧ f.magnitudeBits = infBits) := fun same =>
        inner (ext_sign (by rw [same.1, negative_inf]) (by rw [same.2, magnitudeBits_inf]))
      rw [if_pos rfl]
      split
      · rename_i negative
        have differ : f.magnitudeBits ≠ infBits := fun same => lower ⟨negative, same⟩
        omega
      · have positive : (0 : Int) < infBits := by decide
        omega
  rw [nextafter, number, not_nan_inf, apart, below, negative_inf]
  simp only [Bool.or_self, Bool.false_eq_true, if_false, eq_comm (a := sign)]

theorem magnitudeBits_lt_inf (number : f.isNaN = false) (inner : f ≠ inf f.negative)
    : f.magnitudeBits < infBits := by
  refine Nat.lt_of_le_of_ne (magnitudeBits_le number) (fun same => inner (ext_sign ?_ ?_))
  · rw [negative_inf]
  · rw [same, magnitudeBits_inf]

/-- The neighbour towards an infinity other than the value itself is one rank further. -/
theorem rank_nextafter (sign : Bool) (number : f.isNaN = false) (inner : f ≠ inf sign)
    : (f.nextafter (inf sign)).isNaN = false
      ∧ (f.nextafter (inf sign)).rank = if sign then f.rank - 1 else f.rank + 1 := by
  have room : infBits < 2 ^ 63 := by decide
  have bits := magnitudeBits_le number
  rw [nextafter_inf number inner]
  split
  case isTrue null =>
    rw [rank_ofMagnitude (by decide), rank, isZero_iff.mp null]
    exact ⟨not_nan_ofMagnitude (by decide), by cases sign <;> simp⟩
  case isFalse nonzero =>
    rw [isZero_iff] at nonzero
    split
    case isTrue same =>
      subst same
      have inside := magnitudeBits_lt_inf number inner
      rw [rank_ofMagnitude (by omega), rank]
      refine ⟨not_nan_ofMagnitude inside, ?_⟩
      cases f.negative
      · simp
      · simp
        omega
    case isFalse other =>
      rw [rank_ofMagnitude (by omega), rank]
      refine ⟨not_nan_ofMagnitude (by omega), ?_⟩
      cases hf : f.negative <;> cases sign <;> simp_all <;> omega

/-- The positive zero is no neighbour above: from below zero one arrives at the negative one. -/
theorem nextafter_above_ne_zero (number : f.isNaN = false) (inner : f ≠ inf false)
    : f.nextafter (inf false) ≠ zero false := by
  have room : infBits + 1 < 2 ^ 63 := by decide
  have bits := magnitudeBits_le number
  rw [nextafter_inf number inner, ne_eq, eq_zero_iff]
  rintro ⟨sign, null⟩
  split at null
  · rw [magnitudeBits_ofMagnitude (by decide)] at null
    cases null
  · split at null
    · rw [magnitudeBits_ofMagnitude (by omega)] at null
      cases null
    · rename_i nonzero negative
      rw [if_neg nonzero, if_neg negative, negative_ofMagnitude (by omega)] at sign
      exact negative sign

theorem isNaN_abs (f : Binary64) : f.abs.isNaN = f.isNaN := by
  rw [Bool.eq_iff_iff, isNaN_iff, isNaN_iff, Binary64.abs,
    magnitudeBits_ofMagnitude f.magnitudeBits_lt]

theorem scaled_abs (f : Binary64) : f.abs.scaled = f.scaled.natAbs := by
  rw [natAbs_scaled, scaled_eq, Binary64.abs, negative_ofMagnitude f.magnitudeBits_lt,
    magnitudeBits_ofMagnitude f.magnitudeBits_lt]
  rfl

end Binary64
