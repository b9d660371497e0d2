import Intreccio.Graph.RangeScans

/-! The bounds of range scans (`internal/graph/traversal.go`): the bands that a range is mapped to
cover the values that lie within its bounds.
-/

namespace Intreccio.Graph

open Kv Words Codec Binary64 List

/-- The float is below the other one, or equal to it where that is allowed. -/
def Before (inclusive : Bool) (x y : Binary64) : Prop :=
  x.isNaN = false ∧ y.isNaN = false ∧ (x.rank < y.rank ∨ (inclusive = true ∧ x.rank = y.rank))

/-- The value is below the other one, or equal to it where that is allowed: integers compare
exactly, and with a float as floats.
-/
def Precedes (inclusive : Bool) : Scalar → Scalar → Prop
  | .bool x, .bool y => (x = false ∧ y = true) ∨ (inclusive = true ∧ x = y)
  | .int x, .int y => x.toInt < y.toInt ∨ (inclusive = true ∧ x = y)
  | .int x, .float y => Before inclusive (floatOf x) y
  | .float x, .int y => Before inclusive x (floatOf y)
  | .float x, .float y => Before inclusive x y
  | .str x, .str y => x < y ∨ (inclusive = true ∧ x = y)
  | _, _ => False

def Bounded (r : PropRange) (c : Scalar) : Prop :=
  (∀ b i, r.lower = some (b, i) → ∃ d : Scalar, b = d.toVal ∧ Precedes i d c)
  ∧ ∀ b i, r.upper = some (b, i) → ∃ d : Scalar, b = d.toVal ∧ Precedes i c d

def PropRange.normalized (r : PropRange) : PropRange :=
  { r with
    lower := r.lower.map (fun (v, i) => (normalize v, i))
    upper := r.upper.map (fun (v, i) => (normalize v, i)) }

/-- The value starts with the string of the range, or lies within its bounds. -/
def Meets (r : PropRange) (c : Scalar) : Prop :=
  match r.startsWith with
  | some p => ∃ t, c = .str t ∧ p <+: t
  | none => Bounded r.normalized c

variable {inclusive : Bool}

theorem Before.le {x y : Binary64} (before : Before inclusive x y) : x.rank ≤ y.rank := by
  rcases before.2.2 with below | ⟨_, same⟩
  · exact below.le
  · exact same.le

theorem Before.lt {x y : Binary64} (before : Before false x y) : x.rank < y.rank := by
  rcases before.2.2 with below | ⟨impossible, _⟩
  · exact below
  · cases impossible

theorem toInt_add_one {x : Int64} (room : x.toInt + 1 < 2 ^ 63) : (x + 1).toInt = x.toInt + 1 := by
  have low := x.le_toInt
  rw [Int64.toInt_add, show (1 : Int64).toInt = 1 from rfl]
  exact Int.bmod_eq_of_le (by omega) (by omega)

theorem toInt_sub_one {x : Int64} (room : -(2 ^ 63) ≤ x.toInt - 1) : (x - 1).toInt = x.toInt - 1 := by
  have high := x.toInt_lt
  rw [Int64.toInt_sub, show (1 : Int64).toInt = 1 from rfl]
  exact Int.bmod_eq_of_le (by omega) (by omega)

variable {x : Binary64}

/-- The integers next to a float below 2^53 are representable. -/
theorem toInt_ofInt_floor (small : x.Below53)
    : (Int64.ofInt x.floorInt).toInt = x.floorInt ∧ x.floorInt.natAbs ≤ 2 ^ 53 := by
  have low : -(2 : Int) ^ 53 ≤ x.floorInt := by
    rw [le_floorInt]
    unfold Below53 at small
    omega
  have high : ¬ (2 : Int) ^ 53 ≤ x.floorInt := by
    rw [le_floorInt]
    unfold Below53 at small
    omega
  exact ⟨Int64.toInt_ofInt_of_le (by omega) (by omega), by omega⟩

theorem toInt_ofInt_ceil (small : x.Below53)
    : (Int64.ofInt x.ceilInt).toInt = x.ceilInt ∧ x.ceilInt.natAbs ≤ 2 ^ 53 := by
  have high : x.ceilInt ≤ (2 : Int) ^ 53 := by
    rw [ceilInt_le]
    unfold Below53 at small
    omega
  have low : ¬ x.ceilInt ≤ -(2 : Int) ^ 53 := by
    rw [ceilInt_le]
    unfold Below53 at small
    omega
  exact ⟨Int64.toInt_ofInt_of_le (by omega) (by omega), by omega⟩

/-- A float bound that is used for integers. -/
theorem below53_of_guard (number : x.isNaN = false)
    (used : ¬ (x.isInf || (ofInt maxExactInt).le x.abs) = true)
    : x.Below53 := by
  rw [Bool.or_eq_true, not_or] at used
  exact below53_of_not_le number used.2

variable {b : Scalar}

/-- No integer from the bound on lies below the smallest one that the band starts with. -/
theorem intLowerBound_le {low i : Int64} (bound : intLowerBound b.toVal inclusive = some low)
    (above : Precedes inclusive b (.int i))
    : low.toInt ≤ i.toInt := by
  cases b with
  | int x =>
    cases inclusive with
    | true =>
      obtain rfl : x = low := by simpa [intLowerBound, Scalar.toVal] using bound
      rcases above with below | ⟨_, rfl⟩
      · exact below.le
      · exact le_rfl
    | false =>
      obtain ⟨_, rfl⟩ : x ≠ Int64.maxValue ∧ x + 1 = low := by
        simpa [intLowerBound, Scalar.toVal] using bound
      have below : x.toInt < i.toInt := by simpa [Precedes] using above
      have high := i.toInt_lt
      rw [toInt_add_one (by omega)]
      omega
  | float x =>
    obtain ⟨number, _, order⟩ := above
    simp only [Scalar.toVal, intLowerBound] at bound
    split at bound
    case isTrue => cases bound
    case isFalse used =>
      have small := below53_of_guard number used
      have range := inRange_toInt i
      cases inclusive with
      | true =>
        obtain rfl : Int64.ofInt x.ceilInt = low := by simpa using bound
        have below : ¬ (floatOf i).scaled < x.scaled := by
          rw [← rank_lt_rank]
          omega
        rw [(toInt_ofInt_ceil small).1, ceilInt_le]
        rw [floatOf, ofInt_lt small range] at below
        omega
      | false =>
        obtain rfl : Int64.ofInt x.floorInt + 1 = low := by simpa using bound
        have below : x.scaled < (floatOf i).scaled := by
          rw [← rank_lt_rank]
          simpa using order
        obtain ⟨exact, size⟩ := toInt_ofInt_floor small
        rw [floatOf, lt_ofInt small range, ← Int.not_le, ← le_floorInt] at below
        rw [toInt_add_one (by omega), exact]
        omega
  | _ => cases above

/-- No integer up to the bound lies above the largest one that the band ends with. -/
theorem le_intUpperBound {high i : Int64} (bound : intUpperBound b.toVal inclusive = some high)
    (below : Precedes inclusive (.int i) b)
    : i.toInt ≤ high.toInt := by
  cases b with
  | int x =>
    cases inclusive with
    | true =>
      obtain rfl : x = high := by simpa [intUpperBound, Scalar.toVal] using bound
      rcases below with above | ⟨_, rfl⟩
      · exact above.le
      · exact le_rfl
    | false =>
      obtain ⟨_, rfl⟩ : x ≠ Int64.minValue ∧ x - 1 = high := by
        simpa [intUpperBound, Scalar.toVal] using bound
      have above : i.toInt < x.toInt := by simpa [Precedes] using below
      have low := i.le_toInt
      rw [toInt_sub_one (by omega)]
      omega
  | float x =>
    obtain ⟨_, number, order⟩ := below
    simp only [Scalar.toVal, intUpperBound] at bound
    split at bound
    case isTrue => cases bound
    case isFalse used =>
      have small := below53_of_guard number used
      have range := inRange_toInt i
      cases inclusive with
      | true =>
        obtain rfl : Int64.ofInt x.floorInt = high := by simpa using bound
        have above : ¬ x.scaled < (floatOf i).scaled := by
          rw [← rank_lt_rank]
          omega
        rw [(toInt_ofInt_floor small).1, le_floorInt]
        rw [floatOf, lt_ofInt small range] at above
        omega
      | false =>
        obtain rfl : Int64.ofInt x.ceilInt - 1 = high := by simpa using bound
        have above : (floatOf i).scaled < x.scaled := by
          rw [← rank_lt_rank]
          simpa using order
        obtain ⟨exact, size⟩ := toInt_ofInt_ceil small
        rw [floatOf, ofInt_lt small range, ← Int.not_le, ← ceilInt_le] at above
        rw [toInt_sub_one (by omega), exact]
        omega
  | _ => cases below

/-- A numeric bound compares with floats as the float that it is converted to, which is finite when
it may be rounded.
-/
theorem floatBound_spec (inclusive : Bool) {exact : Bool} (bound : floatBound b.toVal = some (x, exact))
    : (∀ f, Precedes inclusive b (.float f) ↔ Before inclusive x f)
      ∧ (∀ f, Precedes inclusive (.float f) b ↔ Before inclusive f x)
      ∧ (exact = false → x.Finite) := by
  cases b with
  | int i =>
    obtain ⟨rfl, _⟩ := Prod.mk.inj (Option.some.inj bound)
    exact ⟨fun _ => Iff.rfl, fun _ => Iff.rfl, fun _ => finite_floatOf i⟩
  | float y =>
    obtain ⟨rfl, rfl⟩ := Prod.mk.inj (Option.some.inj bound)
    exact ⟨fun _ => Iff.rfl, fun _ => Iff.rfl, fun impossible => by cases impossible⟩
  | _ => cases bound

theorem ne_inf_of_finite (finite : x.Finite) (sign : Bool) : x ≠ inf sign := by
  rintro rfl
  have bits : (inf sign).magnitudeBits < infBits := finite
  rw [magnitudeBits_inf] at bits
  exact lt_irrefl _ bits

/-- A start that is not above a value is below its key, unless it is the positive zero. -/
theorem floatBytes_le {x f : Binary64} (left : x.isNaN = false) (right : f.isNaN = false)
    (low : x.rank ≤ f.rank) (zero : x = .zero false → x.rank < f.rank)
    : scalarBytes (.float x) ≤ scalarBytes (.float f) := by
  rw [← not_lt, scalarBytes_lt (a := .float f) (b := .float x) right left]
  rintro (above | ⟨rfl, rfl⟩)
  · rw [lt_iff_rank right left] at above
    omega
  · have below := zero rfl
    exact lt_irrefl (0 : Int) below

/-- The floats from the bound on lie from the start of the band on.
Witness: the neighbour above a bound is at most every larger float, and is not the positive zero,
which would skip the negative one.
-/
theorem floatStart_le {x f : Binary64} (bound : floatStart b.toVal inclusive = some x)
    (above : Precedes inclusive b (.float f))
    : scalarBytes (.float x) ≤ scalarBytes (.float f) := by
  rw [floatStart] at bound
  split at bound
  case h_1 => cases bound
  case h_2 l exact converted =>
    obtain ⟨compares, _, finite⟩ := floatBound_spec inclusive converted
    have before := (compares f).mp above
    have number := before.1
    have number' := before.2.1
    split at bound
    case isTrue => cases bound
    case isFalse inner =>
    split at bound
    case isTrue rounded =>
      obtain ⟨kept, place⟩ := rank_nextafter true number
        (ne_inf_of_finite (finite (by simpa using rounded)) true)
      obtain rfl := Option.some.inj bound
      have low := before.le
      rw [if_pos rfl] at place
      exact floatBytes_le kept number' (by omega) (fun _ => by omega)
    case isFalse =>
    split at bound
    case isTrue strict =>
      obtain rfl : inclusive = false := by simpa using strict
      have below := before.lt
      have inner : l ≠ inf false := by
        rintro rfl
        have most : f.rank ≤ infBits := by
          have bits := magnitudeBits_le number'
          rw [rank]
          split <;> omega
        rw [rank_inf, if_neg Bool.false_ne_true] at below
        omega
      obtain ⟨kept, place⟩ := rank_nextafter false number inner
      obtain rfl := Option.some.inj bound
      rw [if_neg Bool.false_ne_true] at place
      exact floatBytes_le kept number' (by omega)
        (fun zero => absurd zero (nextafter_above_ne_zero number inner))
    case isFalse =>
    split at bound
    case isTrue zero =>
      obtain rfl := Option.some.inj bound
      refine floatBytes_le (by decide) number' ?_ (fun same => absurd same (by decide))
      rw [rank_eq_iff.mpr (Or.inr ⟨by decide, zero⟩)]
      exact before.le
    case isFalse nonzero =>
      obtain rfl := Option.some.inj bound
      refine floatBytes_le number number' before.le (fun zero => absurd ?_ nonzero)
      rw [zero]
      decide

/-- A float that ends the band lies above those up to the bound. -/
theorem floatStop_lt {f g : Binary64} (below : Precedes inclusive (.float f) b)
    (stops : floatStop b.toVal inclusive (.float g) = true)
    : scalarBytes (.float f) < scalarBytes (.float g) := by
  have lower (left : f.isNaN = false) (right : g.isNaN = false) (order : f.rank < g.rank)
      : scalarBytes (.float f) < scalarBytes (.float g) := by
    rw [scalarBytes_lt (a := .float f) (b := .float g) left right]
    exact Or.inl ((lt_iff_rank left right).mpr order)
  rw [floatStop] at stops
  split at stops
  case h_1 => cases stops
  case h_2 u exact converted =>
    obtain ⟨_, compares, finite⟩ := floatBound_spec inclusive converted
    have before := (compares f).mp below
    have number := before.1
    have number' := before.2.1
    split at stops
    case isTrue => cases stops
    case isFalse =>
    cases exact with
    | false =>
      obtain ⟨kept, place⟩ := rank_nextafter false number'
        (ne_inf_of_finite (finite rfl) false)
      simp [Binary64.lt] at stops
      have low := before.le
      rw [if_neg Bool.false_ne_true] at place
      exact lower number stops.1.2 (by omega)
    | true =>
      cases inclusive with
      | true =>
        simp [Binary64.lt] at stops
        exact lower number stops.1.2 (before.le.trans_lt stops.2)
      | false =>
        simp [Binary64.le] at stops
        exact lower number stops.1.2 (before.lt.trans_le stops.2)

variable {l k : UInt32} {r : PropRange}

variable {c : Scalar}

theorem under_band {tag : UInt8} {n : UInt64}
    : under (propBandPrefix l k tag) (Key.prop l k c n).bytes = true
      ↔ (scalarBytes c).head? = some tag := by
  rw [propBandPrefix, under_propIndex]
  constructor
  · rintro ⟨d, m, same, starts⟩
    cases same
    cases c <;> simpa [scalarBytes, eq_comm] using starts
  · intro first
    refine ⟨c, n, rfl, ?_⟩
    cases c <;> simpa [scalarBytes, eq_comm] using first

theorem head_int : (scalarBytes c).head? = some tagInt ↔ ∃ i, c = .int i := by
  cases c <;> simp [scalarBytes, tagNull, tagBool, tagInt, tagFloat, tagStr]

theorem head_float : (scalarBytes c).head? = some tagFloat ↔ ∃ f, c = .float f := by
  cases c <;> simp [scalarBytes, tagNull, tagBool, tagInt, tagFloat, tagStr]

theorem head_str : (scalarBytes c).head? = some tagStr ↔ ∃ t, c = .str t := by
  cases c <;> simp [scalarBytes, tagNull, tagBool, tagInt, tagFloat, tagStr]

theorem head_bool : (scalarBytes c).head? = some tagBool ↔ ∃ b, c = .bool b := by
  cases c <;> simp [scalarBytes, tagNull, tagBool, tagInt, tagFloat, tagStr]

/-- A band covers some of its values if it starts below them and ends above them. -/
theorem covers_band {tag : UInt8} {start : Bytes} {stop : Scalar → Bool} {accept : Scalar → Prop}
    (inside : ∀ c, accept c → (scalarBytes c).head? = some tag)
    (starts : start = propBandPrefix l k tag ∨ ∃ b, start = propIndexPrefix l k ++ scalarBytes b
      ∧ ∀ c, accept c → scalarBytes b ≤ scalarBytes c)
    (stops : ∀ c d, accept c → (scalarBytes d).head? = some tag → stop d = true
      → scalarBytes c < scalarBytes d)
    : Covers l k ⟨propBandPrefix l k tag, start, stop⟩ accept where
  inside := prefix_append _ _
  reaches := by
    intro c n accepted
    have reached := under_band (l := l) (k := k) (n := n) |>.mpr (inside c accepted)
    refine ⟨reached, ?_⟩
    rcases starts with rfl | ⟨b, rfl, low⟩
    · exact stem_le reached
    · exact value_le_prop n (low c accepted)
  stops := by
    intro c d m accepted below stopped
    exact stops c d accepted (under_band.mp below) stopped

theorem intBand_covers : Covers l k (intBand l k r) (fun c => (∃ i, c = .int i) ∧ Bounded r c) := by
  refine covers_band (fun c accepted => head_int.mpr accepted.1) ?_ ?_
  · rcases lower : r.lower with _ | ⟨b, inclusive⟩
    · exact Or.inl rfl
    · rcases bound : intLowerBound b inclusive with _ | low
      · exact Or.inl (by simp [bound])
      · refine Or.inr ⟨.int low, by simp [bound], ?_⟩
        rintro _ ⟨⟨i, rfl⟩, accepted⟩
        obtain ⟨d, rfl, above⟩ := accepted.1 b inclusive lower
        rw [← not_lt, scalarBytes_lt (by trivial) (by trivial)]
        exact Int.not_lt.mpr (intLowerBound_le bound above)
  · rintro _ _ ⟨⟨i, rfl⟩, accepted⟩ first stopped
    obtain ⟨j, rfl⟩ := head_int.mp first
    rcases upper : r.upper with _ | ⟨b, inclusive⟩
    · simp [upper] at stopped
    · obtain ⟨d, rfl, below⟩ := accepted.2 b inclusive upper
      rcases bound : intUpperBound d.toVal inclusive with _ | high
      · simp [upper, bound] at stopped
      · have last := le_intUpperBound bound below
        have above : high.toInt < j.toInt := by
          simpa [upper, bound, Int64.lt_iff_toInt_lt] using stopped
        rw [scalarBytes_lt (by trivial) (by trivial)]
        exact last.trans_lt above

theorem floatBand_covers : Covers l k (floatBand l k r) (fun c => (∃ f, c = .float f) ∧ Bounded r c) := by
  refine covers_band (fun c accepted => head_float.mpr accepted.1) ?_ ?_
  · rcases lower : r.lower with _ | ⟨b, inclusive⟩
    · exact Or.inl rfl
    · rcases bound : floatStart b inclusive with _ | low
      · exact Or.inl (by simp [bound])
      · refine Or.inr ⟨.float low, by simp [bound], ?_⟩
        rintro _ ⟨⟨f, rfl⟩, accepted⟩
        obtain ⟨d, rfl, above⟩ := accepted.1 b inclusive lower
        exact floatStart_le bound above
  · rintro _ _ ⟨⟨f, rfl⟩, accepted⟩ first stopped
    obtain ⟨g, rfl⟩ := head_float.mp first
    rcases upper : r.upper with _ | ⟨b, inclusive⟩
    · simp [upper] at stopped
    · obtain ⟨d, rfl, below⟩ := accepted.2 b inclusive upper
      exact floatStop_lt below (by simpa [upper] using stopped)

theorem stringBand_covers : Covers l k (stringBand l k r) (fun c => (∃ t, c = .str t) ∧ Bounded r c) := by
  refine covers_band (fun c accepted => head_str.mpr accepted.1) ?_ ?_
  · split
    case h_1 low inclusive lower =>
      refine Or.inr ⟨.str low, rfl, ?_⟩
      rintro _ ⟨⟨t, rfl⟩, accepted⟩
      obtain ⟨d, same, above⟩ := accepted.1 _ _ lower
      obtain rfl : Scalar.str low = d := toVal_inj.mp same
      rw [← not_lt, scalarBytes_lt (by trivial) (by trivial)]
      rcases above with below | ⟨_, rfl⟩
      · exact lt_asymm below
      · exact lt_irrefl low
    case h_2 => exact Or.inl rfl
  · rintro _ _ ⟨⟨t, rfl⟩, accepted⟩ first stopped
    obtain ⟨u, rfl⟩ := head_str.mp first
    split at stopped
    case h_1 high inclusive v upper same =>
      cases same
      obtain ⟨d, same, below⟩ := accepted.2 _ _ upper
      obtain rfl : Scalar.str high = d := toVal_inj.mp same
      rw [scalarBytes_lt (by trivial) (by trivial)]
      have beyond : high < u := by simpa using stopped
      rcases below with under | ⟨_, rfl⟩
      · exact under.trans beyond
      · exact beyond
    case h_2 _ differ => exact absurd rfl (differ u)
    case h_3 => cases stopped

theorem boolBand_covers
    : Covers l k ⟨propBandPrefix l k tagBool, propBandPrefix l k tagBool, fun _ => false⟩
        (fun c => ∃ b, c = .bool b) :=
  covers_band (fun _ accepted => head_bool.mpr accepted) (Or.inl rfl)
    (fun _ _ _ _ impossible => by cases impossible)

theorem startsWith_covers (p : Str)
    : Covers l k ⟨propIndexPrefix l k ++ appendStringPrefix p, propIndexPrefix l k ++ appendStringPrefix p,
        fun _ => false⟩ (fun c => ∃ t, c = .str t ∧ p <+: t) where
  inside := prefix_append _ _
  reaches := by
    rintro _ n ⟨t, rfl, starts⟩
    have reached : under (propIndexPrefix l k ++ appendStringPrefix p)
        (Key.prop l k (.str t) n).bytes = true :=
      under_propIndex.mpr ⟨.str t, n, rfl, appendStringPrefix_prefix.mpr starts⟩
    exact ⟨reached, stem_le reached⟩
  stops := fun _ _ _ _ _ impossible => by cases impossible

/-- Only values of one kind compare. -/
theorem Precedes.kind {c d : Scalar} (order : Precedes inclusive c d)
    : ∃ kind, valueKind c.toVal = some kind ∧ valueKind d.toVal = some kind := by
  cases c <;> cases d
  case bool.bool => exact ⟨.bool, rfl, rfl⟩
  case int.int => exact ⟨.number, rfl, rfl⟩
  case int.float => exact ⟨.number, rfl, by simp [valueKind, Scalar.toVal, order.2.1]⟩
  case float.int => exact ⟨.number, by simp [valueKind, Scalar.toVal, order.1], rfl⟩
  case float.float =>
    exact ⟨.number, by simp [valueKind, Scalar.toVal, order.1], by simp [valueKind, Scalar.toVal, order.2.1]⟩
  case str.str => exact ⟨.string, rfl, rfl⟩
  all_goals cases order

/-- A value within the bounds of a range is of the kind that the bounds agree on. -/
theorem rangeKind_of_bounded (sided : r.lower ≠ none ∨ r.upper ≠ none) (bounded : Bounded r c)
    : ∃ kind, rangeKind r = some kind ∧ valueKind c.toVal = some kind := by
  obtain ⟨low, high⟩ := bounded
  rw [rangeKind]
  rcases lower : r.lower with _ | ⟨b, i⟩ <;> rcases upper : r.upper with _ | ⟨b', i'⟩
  · simp [lower, upper] at sided
  · obtain ⟨d, rfl, order⟩ := high b' i' upper
    obtain ⟨kind, same, other⟩ := order.kind
    exact ⟨kind, other, same⟩
  · obtain ⟨d, rfl, order⟩ := low b i lower
    obtain ⟨kind, same, other⟩ := order.kind
    exact ⟨kind, same, other⟩
  · obtain ⟨d, rfl, order⟩ := low b i lower
    obtain ⟨d', rfl, order'⟩ := high b' i' upper
    obtain ⟨kind, same, other⟩ := order.kind
    obtain ⟨kind', same', other'⟩ := order'.kind
    obtain rfl : kind = kind' := Option.some.inj (other.symm.trans same')
    exact ⟨kind, by simp [same, other'], other⟩

/-- The range has a bound or a string. -/
def PropRange.Given (r : PropRange) : Prop :=
  r.startsWith ≠ none ∨ r.lower ≠ none ∨ r.upper ≠ none

theorem sided_normalized (given : r.Given) (plain : r.startsWith = none)
    : r.normalized.lower ≠ none ∨ r.normalized.upper ≠ none := by
  simpa [PropRange.Given, PropRange.normalized, plain] using given

def kindBands (l k : UInt32) (r : PropRange) : ValueKind → List BandPlan
  | .string => [stringBand l k r]
  | .bool => [⟨propBandPrefix l k tagBool, propBandPrefix l k tagBool, fun _ => false⟩]
  | .number => [intBand l k r, floatBand l k r]

theorem rangeBands_plain (plain : r.startsWith = none)
    : rangeBands l k r = (rangeKind r.normalized).map (kindBands l k r.normalized) := by
  simp only [rangeBands, PropRange.normalized, plain]
  generalize rangeKind _ = kinds
  cases kinds with
  | none => rfl
  | some kind => cases kind <;> rfl

theorem rangeBands_startsWith {p : Str} (starts : r.startsWith = some p)
    : rangeBands l k r = some [⟨propIndexPrefix l k ++ appendStringPrefix p,
        propIndexPrefix l k ++ appendStringPrefix p, fun _ => false⟩] := by
  rw [rangeBands, starts]

theorem apart_single {p : BandPlan} (inside : propIndexPrefix l k <+: p.stem) : Apart l k [p] := by
  refine ⟨?_, pairwise_singleton _ _⟩
  simpa using inside

/-- The bands of one kind share no key. -/
theorem apart_kindBands (kind : ValueKind) : Apart l k (kindBands l k r kind) := by
  cases kind with
  | string => exact apart_single (prefix_append _ _)
  | bool => exact apart_single (prefix_append _ _)
  | number =>
    refine ⟨?_, pairwise_pair.mpr ?_⟩
    · simp [kindBands, intBand_covers.inside, floatBand_covers.inside]
    · rintro key ⟨int, float⟩
      obtain ⟨x, rfl⟩ := isPrefixOf_iff_prefix.mp int
      simp [under, floatBand, intBand, propBandPrefix, tagInt, tagFloat] at float

theorem kindBands_cover {kind : ValueKind} (bounded : Bounded r c)
    (same : valueKind c.toVal = some kind)
    : ∃ p ∈ kindBands l k r kind, ∃ accept, Covers l k p accept ∧ accept c := by
  cases c with
  | null => cases same
  | bool b =>
    obtain rfl := Option.some.inj same
    exact ⟨_, mem_singleton.mpr rfl, _, boolBand_covers, b, rfl⟩
  | int i =>
    obtain rfl := Option.some.inj same
    exact ⟨_, mem_cons_self, _, intBand_covers, ⟨i, rfl⟩, bounded⟩
  | float f =>
    simp only [valueKind, Scalar.toVal] at same
    split at same
    case isTrue => cases same
    case isFalse =>
      obtain rfl := Option.some.inj same
      exact ⟨_, mem_cons_of_mem _ (mem_singleton.mpr rfl), _, floatBand_covers, ⟨f, rfl⟩,
        bounded⟩
  | str t =>
    obtain rfl := Option.some.inj same
    exact ⟨_, mem_singleton.mpr rfl, _, stringBand_covers, ⟨t, rfl⟩, bounded⟩

/-- Without bands, no value meets the range. -/
theorem not_meets_of_rangeBands (given : r.Given) (unmet : rangeBands l k r = none) (c : Scalar)
    : ¬ Meets r c := by
  intro met
  rw [Meets] at met
  split at met
  case h_1 p starts =>
    rw [rangeBands_startsWith starts] at unmet
    cases unmet
  case h_2 plain =>
    obtain ⟨kind, agreed, _⟩ := rangeKind_of_bounded (sided_normalized given plain) met
    rw [rangeBands_plain plain, agreed] at unmet
    cases unmet

/-- The bands share no key, and every value that meets the range is covered by one of them. -/
theorem rangeBands_cover (given : r.Given) {bands : List BandPlan}
    (mapped : rangeBands l k r = some bands)
    : Apart l k bands
      ∧ ∀ c, Meets r c → ∃ p ∈ bands, ∃ accept, Covers l k p accept ∧ accept c := by
  rcases starts : r.startsWith with _ | p
  · rw [rangeBands_plain starts] at mapped
    obtain ⟨kind, agreed, rfl⟩ := Option.map_eq_some_iff.mp mapped
    refine ⟨apart_kindBands kind, fun c met => ?_⟩
    rw [Meets, starts] at met
    obtain ⟨kind', agreed', same⟩ := rangeKind_of_bounded (sided_normalized given starts) met
    obtain rfl := Option.some.inj (agreed.symm.trans agreed')
    exact kindBands_cover met same
  · rw [rangeBands_startsWith starts] at mapped
    obtain rfl := Option.some.inj mapped
    refine ⟨apart_single (prefix_append _ _), fun c met => ?_⟩
    rw [Meets, starts] at met
    exact ⟨_, mem_singleton.mpr rfl, _, startsWith_covers p, met⟩

end Intreccio.Graph
