import Intreccio.Exec.Reading

/-! Integers in queries against the integers of mathematics: arithmetic and `sum()` fail where
the exact result does not fit, `range()` lists exactly its terms, and `substring()` drops and
takes characters unless the sum of its offsets wraps around.
-/

namespace Intreccio.Exec

open Kv Kv.Program Words Graph List

/-- A 64-bit integer has this value. -/
def InRange (n : Int) : Prop := -2 ^ 63 ≤ n ∧ n < 2 ^ 63

instance (n : Int) : Decidable (InRange n) := inferInstanceAs (Decidable (_ ∧ _))

theorem inRange_toInt (a : Int64) : InRange a.toInt := ⟨a.le_toInt, a.toInt_lt⟩

/-- Wrapping around changes a number by a multiple of `2 ^ 64`. -/
theorem bmod_eq_add (n : Int) : ∃ k, n.bmod (2 ^ 64) = n + 2 ^ 64 * k :=
  ⟨-(n.bdiv (2 ^ 64)), by
    have h := Int.bmod_add_bdiv n (2 ^ 64)
    push_cast at h ⊢
    omega⟩

theorem bmod_of_inRange {n : Int} (fits : InRange n) : n.bmod (2 ^ 64) = n := by
  obtain ⟨low, high⟩ := fits
  exact Int.bmod_eq_of_le (by omega) (by omega)

/-- The integer `n`, or the overflow error when no 64-bit integer has its value. -/
def exactly (n : Int) : Except Err Int64 :=
  if InRange n then .ok (Int64.ofInt n) else .error errIntegerOverflow

theorem exactly_of_toInt {n : Int} {a : Int64} (same : a.toInt = n) : exactly n = .ok a := by
  subst same
  rw [exactly, if_pos (inRange_toInt a), Int64.ofInt_toInt]

/-- A test that refuses exactly the results that do not fit. -/
theorem refuse_eq_exactly {n : Int} {a : Int64} {refused : Prop} [Decidable refused]
    (wraps : a.toInt = n.bmod (2 ^ 64)) (exact : refused ↔ ¬ InRange n)
    : (if refused then .error errIntegerOverflow else .ok a) = exactly n := by
  by_cases fits : InRange n
  · rw [if_neg (fun r => exact.mp r fits), exactly_of_toInt (wraps.trans (bmod_of_inRange fits))]
  · rw [if_pos (exact.mpr fits), exactly, if_neg fits]

theorem lt_zero_iff (a : Int64) : a < 0 ↔ a.toBitVec.msb = true := by
  rw [Int64.lt_iff_toInt_lt, BitVec.msb_eq_toInt, decide_eq_true_iff]
  rfl

theorem xor_lt_zero (a b : Int64) : a ^^^ b < 0 ↔ (a < 0 ↔ ¬ b < 0) := by
  simp only [lt_zero_iff, Int64.toBitVec_xor, BitVec.msb_xor]
  cases a.toBitVec.msb <;> cases b.toBitVec.msb <;> decide

theorem and_lt_zero (a b : Int64) : a &&& b < 0 ↔ a < 0 ∧ b < 0 := by
  simp only [lt_zero_iff, Int64.toBitVec_and, BitVec.msb_and, Bool.and_eq_true]

theorem addInt_exact (a b : Int64) : addInt a b = exactly (a.toInt + b.toInt) := by
  refine refuse_eq_exactly (Int64.toInt_add a b) ?_
  obtain ⟨k, wraps⟩ := bmod_eq_add (a.toInt + b.toInt)
  rw [← Int64.toInt_add] at wraps
  rw [and_lt_zero, xor_lt_zero, xor_lt_zero]
  simp only [Int64.lt_iff_toInt_lt, Int64.toInt_zero]
  have := inRange_toInt a
  have := inRange_toInt b
  have := inRange_toInt (a + b)
  simp only [InRange] at *
  omega

theorem sub_exact (a b : Int64) : intArithmetic .sub a b = exactly (a.toInt - b.toInt) := by
  refine refuse_eq_exactly (Int64.toInt_sub a b) ?_
  obtain ⟨k, wraps⟩ := bmod_eq_add (a.toInt - b.toInt)
  rw [← Int64.toInt_sub] at wraps
  rw [and_lt_zero, xor_lt_zero, xor_lt_zero]
  simp only [Int64.lt_iff_toInt_lt, Int64.toInt_zero]
  have := inRange_toInt a
  have := inRange_toInt b
  have := inRange_toInt (a - b)
  simp only [InRange] at *
  omega

/-- A quotient of 64-bit integers fits, except that of the least one by minus one. -/
theorem tdiv_inRange {a b : Int64} (plain : ¬ (a = Int64.minValue ∧ b = -1))
    : InRange (a.toInt.tdiv b.toInt) := by
  have size : (a.toInt.tdiv b.toInt).natAbs = a.toInt.natAbs / b.toInt.natAbs := Int.natAbs_tdiv _ _
  have small : a.toInt.natAbs / b.toInt.natAbs ≤ a.toInt.natAbs := Nat.div_le_self _ _
  have range := inRange_toInt a
  simp only [InRange] at *
  refine ⟨by omega, ?_⟩
  by_contra large
  -- only the least integer has a quotient as large as 2 ^ 63, and only by one or minus one
  have least : a.toInt = -2 ^ 63 := by omega
  have unit : b.toInt.natAbs = 1 := by
    have : a.toInt.natAbs / b.toInt.natAbs = a.toInt.natAbs := by omega
    exact (Nat.div_eq_self.mp this).resolve_left (by omega)
  rcases Int.natAbs_eq_iff.mp unit with one | minus
  · simp only [one, Nat.cast_one, Int.tdiv_one] at large
    omega
  · exact plain ⟨Int64.toInt_inj.mp least, Int64.toInt_inj.mp minus⟩

theorem div_exact (a b : Int64)
    : (if a = Int64.minValue ∧ b = -1 then .error errIntegerOverflow else .ok (a / b))
      = exactly (a.toInt.tdiv b.toInt) := by
  refine refuse_eq_exactly (Int64.toInt_div a b) ⟨?_, fun out => by_contra (out ∘ tdiv_inRange)⟩
  rintro ⟨rfl, rfl⟩
  decide

/-- Dividing the wrapped product by one factor gives the other only when it did not wrap. -/
theorem mul_exact {a b : Int64} (hb : b ≠ 0)
    : (if a * b / b ≠ a ∨ (a = -1 ∧ b = Int64.minValue) ∨ (b = -1 ∧ a = Int64.minValue)
        then .error errIntegerOverflow else .ok (a * b)) = exactly (a.toInt * b.toInt) := by
  refine refuse_eq_exactly (Int64.toInt_mul a b) ?_
  have nonzero : b.toInt ≠ 0 := fun h => hb (Int64.toInt_inj.mp h)
  constructor
  · rintro (differs | ⟨rfl, rfl⟩ | ⟨rfl, rfl⟩)
    · intro fits
      refine differs (Int64.toInt_inj.mp ?_)
      rw [Int64.toInt_div, Int64.toInt_mul, bmod_of_inRange fits, Int.mul_tdiv_cancel _ nonzero,
        bmod_of_inRange (inRange_toInt a)]
    · decide
    · decide
  · intro out
    by_contra accepted
    simp only [not_or, not_not] at accepted
    obtain ⟨back, -, least⟩ := accepted
    have plain : ¬ (a * b = Int64.minValue ∧ b = -1) := by
      rintro ⟨product, rfl⟩
      refine least ⟨rfl, ?_⟩
      rw [← back, product]
      decide
    have quotient : a.toInt = (a * b).toInt.tdiv b.toInt := by
      conv_lhs => rw [← back]
      rw [Int64.toInt_div, bmod_of_inRange (tdiv_inRange plain)]
    -- the remainder is a multiple of 2 ^ 64 below the divisor, so it is zero
    obtain ⟨k, wraps⟩ := bmod_eq_add (a.toInt * b.toInt)
    rw [← Int64.toInt_mul] at wraps
    have division := Int.mul_tdiv_add_tmod (a * b).toInt b.toInt
    rw [← quotient, Int.mul_comm] at division
    have bound : ((a * b).toInt.tmod b.toInt).natAbs < b.toInt.natAbs := by
      rw [Int.natAbs_tmod]
      exact Nat.mod_lt _ (Int.natAbs_pos.mpr nonzero)
    have := inRange_toInt b
    have := inRange_toInt (a * b)
    simp only [InRange] at *
    omega

/-- The operation on the integers of mathematics; a quotient is truncated toward zero. -/
def Arithmetic.exact : Arithmetic → Int → Int → Int
  | .add, a, b => a + b
  | .sub, a, b => a - b
  | .mul, a, b => a * b
  | .div, a, b => a.tdiv b
  | .mod, a, b => a.tmod b

theorem intArithmetic_exact (op : Arithmetic) (a b : Int64)
    : intArithmetic op a b
      = if op ∈ [Arithmetic.div, .mod] ∧ b = 0 then .error divisionByZero
        else exactly (op.exact a.toInt b.toInt) := by
  cases op with
  | add => exact addInt_exact a b
  | sub => exact sub_exact a b
  | mul =>
    rw [if_neg (by simp)]
    by_cases zero : a = 0 ∨ b = 0
    · have none : (0 : Int64).toInt = a.toInt * b.toInt := by
        rcases zero with rfl | rfl <;> simp
      rw [intArithmetic, if_pos zero, Arithmetic.exact, exactly_of_toInt none]
    · rw [intArithmetic, if_neg zero]
      exact mul_exact (not_or.mp zero).2
  | div =>
    by_cases zero : b = 0
    · rw [intArithmetic, if_pos zero, if_pos ⟨by simp, zero⟩]
    · rw [intArithmetic, if_neg zero, div_exact, if_neg (fun h => zero h.2)]
      rfl
  | mod =>
    by_cases zero : b = 0
    · rw [intArithmetic, if_pos zero, if_pos ⟨by simp, zero⟩]
    · rw [intArithmetic, if_neg zero, if_neg (fun h => zero h.2)]
      exact (exactly_of_toInt (Int64.toInt_mod a b)).symm

theorem negateInt_exact (a : Int64) : negateInt a = exactly (-a.toInt) := by
  refine refuse_eq_exactly (Int64.toInt_neg a) ?_
  have := inRange_toInt a
  have least : a = Int64.minValue ↔ a.toInt = -2 ^ 63 := Int64.toInt_inj.symm
  rw [least]
  simp only [InRange] at *
  omega

theorem fnAbs_exact (ctx : Context) (c : Choices) (a : Int64)
    : fnAbs ctx c [.int a] = Program.ofExcept ((exactly |a.toInt|).map .int) := by
  have run : fnAbs ctx c [.int a]
      = if a < 0 then Program.ofExcept ((negateInt a).map .int) else .ret (.int a) := by
    change (if a < 0 then _ else _) = _
    split
    · cases negateInt a <;> rfl
    · rfl
  rw [run]
  split
  case isTrue negative =>
    rw [negateInt_exact, abs_of_neg (Int64.lt_iff_toInt_lt.mp negative)]
  case isFalse nonneg =>
    rw [abs_of_nonneg (by simpa [Int64.lt_iff_toInt_lt] using nonneg), exactly_of_toInt rfl]
    rfl

/-- An accumulator of a group takes the rows of the group one after another (`aggregateOp.load`). -/
def addAll (ctx : Context) (spec : AggSpec) : Accumulator → List Row → Choices → Txn Accumulator
  | a, [], _ => return a
  | a, b :: rest, c => do
      let a ← a.add ctx b spec c.now
      addAll ctx spec a rest c.later

/-- Every prefix sum is a 64-bit integer. -/
def PrefixesFit (total : Int) (ns : List Int64) : Prop :=
  ∀ k ≤ ns.length, InRange (total + ((ns.take k).map Int64.toInt).sum)

theorem prefixesFit_cons {total : Int} {n : Int64} {ns : List Int64} (fits : InRange total)
    : PrefixesFit total (n :: ns) ↔ PrefixesFit (total + n.toInt) ns := by
  constructor
  · intro h k hk
    simpa [add_assoc] using h (k + 1) (by simpa using hk)
  · intro h k hk
    cases k with
    | zero => simpa using fits
    | succ k => simpa [add_assoc] using h k (by simpa using hk)

/-- The argument of the aggregate has these integers as its values in the rows. -/
def Integers (ctx : Context) (s : Store) (arg : Ast.Expr) : List Row → List Int64 → Prop :=
  Forall₂ (fun b n => ∀ c, (eval ctx arg b c).read s = .ok (.int n))

/-- A sum is exact until a prefix does not fit; there it fails. By induction on the rows, for the sum
of the rows before them.
-/
theorem addAll_sum {ctx : Context} {s : Store} {arg : Ast.Expr} {rows : List Row} {ns : List Int64}
    (integers : Integers ctx s arg rows ns) (a : Accumulator) (isInt : a.isInt = true) (c : Choices)
    : (PrefixesFit a.intSum.toInt ns → ∃ total,
        ((addAll ctx ⟨.sum, some arg, false⟩ a rows c).read s).map (·.result .sum) = .ok (.int total)
        ∧ total.toInt = a.intSum.toInt + (ns.map Int64.toInt).sum)
      ∧ (¬ PrefixesFit a.intSum.toInt ns
        → (addAll ctx ⟨.sum, some arg, false⟩ a rows c).read s = .error (.because "sum" errIntegerOverflow)) := by
  induction integers generalizing a c with
  | nil =>
    have fits : PrefixesFit a.intSum.toInt [] := by
      intro k hk
      simpa using inRange_toInt a.intSum
    refine ⟨fun _ => ⟨a.intSum, ?_, by simp⟩, fun bad => absurd fits bad⟩
    simp [addAll, Accumulator.result, isInt, Except.map]
  | @cons b n rows ns value _ ih =>
    rw [prefixesFit_cons (inRange_toInt _)]
    have reads : (a.add ctx b ⟨.sum, some arg, false⟩ c.now).Reads := reads_add _ _ _ _ _
    have added := addInt_exact a.intSum n
    have took : (a.add ctx b ⟨.sum, some arg, false⟩ c.now).read s = a.addSum (.int n) :=
      (read_bind_of_ok (reads_eval _ _ _ _) (value c.now)).trans (read_ofExcept _)
    rw [Accumulator.addSum, if_pos isInt] at took
    by_cases fit : InRange (a.intSum.toInt + n.toInt)
    · rw [exactly, if_pos fit] at added
      have exact := Int64.toInt_ofInt_of_le fit.1 fit.2
      generalize Int64.ofInt _ = total at added exact
      rw [added] at took
      rw [addAll, bind_eq, read_bind_of_ok reads took]
      simpa [exact, add_assoc] using ih { a with intSum := total } isInt c.later
    · rw [exactly, if_neg fit] at added
      rw [added] at took
      refine ⟨fun fits => absurd ?_ fit, fun _ => ?_⟩
      · simpa using fits 0 (by omega)
      · rw [addAll, bind_eq, read_bind_of_error reads took]

/-- Integer results are exact or an error, and a sum fails at the first prefix that does not fit. -/
theorem integers_exact
    : (∀ op (a b : Int64), arithmetic op (.int a) (.int b)
        = if op ∈ [Arithmetic.div, .mod] ∧ b = 0 then .error divisionByZero
          else (exactly (op.exact a.toInt b.toInt)).map .int)
      ∧ (∀ a : Int64, applyUnary .minus (.int a) = (exactly (-a.toInt)).map .int)
      ∧ (∀ ctx c (a : Int64), fnAbs ctx c [.int a] = Program.ofExcept ((exactly |a.toInt|).map .int))
      ∧ (∀ n : Int, (InRange n → ∃ a, exactly n = .ok a ∧ a.toInt = n)
          ∧ (¬ InRange n → exactly n = .error errIntegerOverflow))
      ∧ (∀ ctx s arg rows (ns : List Int64), Integers ctx s arg rows ns → ∀ c,
          let spec : AggSpec := ⟨.sum, some arg, false⟩
          let summed := (addAll ctx spec (newAccumulator spec) rows c).read s
          (PrefixesFit 0 ns → ∃ total, summed.map (·.result .sum) = .ok (.int total)
            ∧ total.toInt = (ns.map Int64.toInt).sum)
          ∧ (¬ PrefixesFit 0 ns → summed = .error (.because "sum" errIntegerOverflow))) := by
  refine ⟨?_, ?_, fnAbs_exact, ?_, ?_⟩
  · intro op a b
    have run : arithmetic op (.int a) (.int b) = (intArithmetic op a b).map .int := by
      cases op <;> rfl
    rw [run, intArithmetic_exact]
    split <;> rfl
  · intro a
    exact congrArg (Except.map Val.int) (negateInt_exact a)
  · intro n
    refine ⟨fun fits => ⟨_, if_pos fits, Int64.toInt_ofInt_of_le fits.1 fits.2⟩, fun out => if_neg out⟩
  · intro ctx s arg rows ns integers c
    simpa [newAccumulator] using addAll_sum integers (newAccumulator ⟨.sum, some arg, false⟩) rfl c

theorem integers_exact_sum
    : Integers .bare .empty (.var (lit "x")) [OrderedMap.empty.set (lit "x") (.int 1),
          OrderedMap.empty.set (lit "x") (.int 2)] [1, 2]
      ∧ PrefixesFit 0 [1, 2] ∧ ∃ total, total.toInt = 3
        ∧ ((addAll .bare ⟨.sum, some (.var (lit "x")), false⟩ (newAccumulator ⟨.sum, some (.var (lit "x")), false⟩)
            [OrderedMap.empty.set (lit "x") (.int 1), OrderedMap.empty.set (lit "x") (.int 2)] .ordered).read
              .empty).map (·.result .sum) = .ok (.int total) := by
  have integers : Integers .bare .empty (.var (lit "x")) [OrderedMap.empty.set (lit "x") (.int 1),
      OrderedMap.empty.set (lit "x") (.int 2)] [1, 2] := .cons (fun _ => rfl) (.cons (fun _ => rfl) .nil)
  have fits : PrefixesFit 0 [1, 2] := by
    intro k within
    have bound : k = 0 ∨ k = 1 ∨ k = 2 := by
      rw [length_cons, length_singleton] at within
      omega
    rcases bound with rfl | rfl | rfl <;> decide
  obtain ⟨total, summed, value⟩ := (integers_exact.2.2.2.2 _ _ _ _ _ integers .ordered).1 fits
  exact ⟨integers, fits, total, value, summed⟩

/-- The term `n` of a range does not pass `stop`. -/
def NotPast (stop step n : Int) : Prop := if 0 < step then n ≤ stop else stop ≤ n

instance (stop step n : Int) : Decidable (NotPast stop step n) := inferInstanceAs (Decidable (ite _ _ _))

section Range

variable {start stop step i : Int64}

theorem admits_iff (nonzero : step ≠ 0)
    : (0 < step ∧ i ≤ stop) ∨ (step < 0 ∧ stop ≤ i) ↔ NotPast stop.toInt step.toInt i.toInt := by
  have : step.toInt ≠ 0 := fun h => nonzero (Int64.toInt_inj.mp h)
  simp only [Int64.lt_iff_toInt_lt, Int64.le_iff_toInt_le, Int64.toInt_zero, NotPast]
  split <;> omega

/-- The limits that guard the increment are themselves computed without wrapping around. -/
theorem toInt_limit (step : Int64)
    : (0 < step → (Int64.maxValue - step).toInt = 2 ^ 63 - 1 - step.toInt)
      ∧ (step < 0 → (Int64.minValue - step).toInt = -2 ^ 63 - step.toInt) := by
  have range := inRange_toInt step
  have greatest : Int64.maxValue.toInt = 2 ^ 63 - 1 := rfl
  have least : Int64.minValue.toInt = -2 ^ 63 := rfl
  simp only [Int64.lt_iff_toInt_lt, Int64.toInt_zero, Int64.toInt_sub, greatest, least, InRange] at *
  exact ⟨fun up => bmod_of_inRange ⟨by omega, by omega⟩, fun down => bmod_of_inRange ⟨by omega, by omega⟩⟩

/-- The loop stops before an increment exactly when it would wrap around. -/
theorem guard_iff (nonzero : step ≠ 0)
    : (0 < step ∧ Int64.maxValue - step < i) ∨ (step < 0 ∧ i < Int64.minValue - step)
      ↔ ¬ InRange (i.toInt + step.toInt) := by
  have : step.toInt ≠ 0 := fun h => nonzero (Int64.toInt_inj.mp h)
  obtain ⟨high, low⟩ := toInt_limit step
  have := inRange_toInt i
  simp only [Int64.lt_iff_toInt_lt, Int64.toInt_zero, InRange] at *
  omega

/-- Past a term that passes `stop`, or that the next step would take out of range, none follows. -/
theorem not_notPast_add {n : Int} (k : Nat) (passed : ¬ NotPast stop.toInt step.toInt n)
    : ¬ NotPast stop.toInt step.toInt (n + k * step.toInt) := by
  unfold NotPast at *
  split at passed
  case isTrue up =>
    have : 0 ≤ k * step.toInt := Int.mul_nonneg (by omega) (by omega)
    rw [if_pos up]
    omega
  case isFalse down =>
    have : k * step.toInt ≤ 0 := Int.mul_nonpos_of_nonneg_of_nonpos (by omega) (by omega)
    rw [if_neg down]
    omega

theorem not_notPast_of_not_inRange (out : ¬ InRange (i.toInt + step.toInt))
    : ¬ NotPast stop.toInt step.toInt (i.toInt + step.toInt) := by
  have := inRange_toInt i
  have := inRange_toInt stop
  unfold NotPast InRange at *
  split <;> omega

theorem rangeFrom_getElem? (nonzero : step ≠ 0) (fuel k : Nat) (i : Int64) (enough : k < fuel)
    : (rangeFrom stop step fuel i)[k]?.map Int64.toInt
      = if NotPast stop.toInt step.toInt (i.toInt + k * step.toInt) then some (i.toInt + k * step.toInt)
        else none := by
  induction fuel generalizing i k with
  | zero => omega
  | succ fuel ih =>
    rw [rangeFrom]
    simp only [admits_iff nonzero, guard_iff nonzero]
    by_cases admits : NotPast stop.toInt step.toInt i.toInt
    case neg =>
      rw [if_neg admits, if_neg (not_notPast_add k admits)]
      rfl
    rw [if_pos admits]
    cases k with
    | zero => split <;> simp [admits]
    | succ k =>
      have next : i.toInt + ((k + 1 : Nat) : Int) * step.toInt
          = i.toInt + step.toInt + k * step.toInt := by
        rw [Nat.cast_succ, Int.add_mul, Int.one_mul]
        omega
      rw [next]
      split
      case isTrue out =>
        rw [if_neg (not_notPast_add k (not_notPast_of_not_inRange out))]
        rfl
      case isFalse fits =>
        have sum : (i + step).toInt = i.toInt + step.toInt := by
          rw [Int64.toInt_add, bmod_of_inRange (not_not.mp fits)]
        simpa [sum] using ih k (i + step) (by omega)

theorem length_rangeFrom_le (fuel : Nat) (i : Int64) : (rangeFrom stop step fuel i).length ≤ fuel := by
  induction fuel generalizing i with
  | zero => simp [rangeFrom]
  | succ fuel ih =>
    rw [rangeFrom]
    split
    · split
      · simp
      · simpa using ih (i + step)
    · simp

/-- `2 ^ 64` rounds are enough for every term. -/
theorem rangeFrom_exact (nonzero : step ≠ 0) {fuel : Nat} (enough : 2 ^ 64 ≤ fuel) (k : Nat)
    : (rangeFrom stop step fuel start)[k]?.map Int64.toInt
      = if NotPast stop.toInt step.toInt (start.toInt + k * step.toInt)
        then some (start.toInt + k * step.toInt) else none := by
  by_cases inside : k < fuel
  · exact rangeFrom_getElem? nonzero fuel k start inside
  · have far : ¬ NotPast stop.toInt step.toInt (start.toInt + k * step.toInt) := by
      have : step.toInt ≠ 0 := fun h => nonzero (Int64.toInt_inj.mp h)
      have := inRange_toInt start
      have := inRange_toInt stop
      unfold NotPast InRange at *
      split
      · have : (k : Int) * 1 ≤ k * step.toInt := Int.mul_le_mul_of_nonneg_left (by omega) (by omega)
        omega
      · have : (k : Int) * step.toInt ≤ k * (-1) := Int.mul_le_mul_of_nonneg_left (by omega) (by omega)
        omega
    rw [if_neg far, getElem?_eq_none ((length_rangeFrom_le fuel start).trans (by omega))]
    rfl

end Range

/-- `range()` ends and, unless it is refused as too long, lists all the terms that do not pass
`stop`; neither its increments nor their guards wrap around.
-/
theorem range_exact (ctx : Context) (c : Choices) (start stop step : Int64) (nonzero : step ≠ 0)
    : ∃ terms : List Int64, (∀ fuel ≥ 2 ^ 64, rangeFrom stop step fuel start = terms)
      ∧ (∀ k : Nat, terms[k]?.map Int64.toInt
          = if NotPast stop.toInt step.toInt (start.toInt + k * step.toInt)
            then some (start.toInt + k * step.toInt) else none)
      ∧ (∀ args, args = [.int start, .int stop, .int step] ∨ args = [.int start, .int stop] ∧ step = 1
          → fnRange ctx c args
            = if (Binary64.ofInt maxRangeLen).lt
                ((((floatOf stop).sub (floatOf start)).div (floatOf step)).add (Binary64.ofInt 1))
              then .fail (.plain ("exec: range() would produce more than " ++ toString maxRangeLen ++ " elements"))
              else .ret (.list (terms.map .int)))
      ∧ (0 < step → (Int64.maxValue - step).toInt = 2 ^ 63 - 1 - step.toInt)
      ∧ (step < 0 → (Int64.minValue - step).toInt = -2 ^ 63 - step.toInt)
      ∧ (∀ i : Int64, ¬ ((0 < step ∧ Int64.maxValue - step < i) ∨ (step < 0 ∧ i < Int64.minValue - step))
          → (i + step).toInt = i.toInt + step.toInt) := by
  refine ⟨rangeFrom stop step (2 ^ 64) start, ?_, rangeFrom_exact nonzero le_rfl, ?_, (toInt_limit step).1,
    (toInt_limit step).2, ?_⟩
  · intro fuel enough
    refine List.ext_getElem? fun k => ?_
    refine Option.map_injective (fun _ _ => Int64.toInt_inj.mp) ?_
    rw [rangeFrom_exact nonzero enough, rangeFrom_exact nonzero le_rfl]
  · rintro args (rfl | ⟨rfl, rfl⟩)
    · change (if step = 0 then _ else if _ then _ else _) = _
      rw [if_neg nonzero]
      rfl
    · rfl
  · intro i goes
    rw [guard_iff nonzero, not_not] at goes
    rw [Int64.toInt_add, bmod_of_inRange goes]

/-- The least integer as step: the second term would be below every integer. -/
theorem range_exact_least
    : Int64.minValue ≠ 0 ∧ ∃ terms, rangeFrom 0 Int64.minValue (2 ^ 64) 5 = terms
      ∧ terms[0]?.map Int64.toInt = some 5 ∧ terms[1]?.map Int64.toInt = none := by
  obtain ⟨terms, ends, exact, -⟩ := range_exact .bare .ordered 5 0 Int64.minValue (by decide)
  exact ⟨by decide, terms, ends _ le_rfl, exact 0, exact 1⟩

section Substring

variable {s : Str} {start length : Int64}

/-- The result of `substring()` by dropping and taking; negative offsets count as zero. -/
def dropTake (s : Str) (start length : Int64) : Val :=
  .str (ofRunes (((runes s).drop start.toInt.toNat).take length.toInt.toNat))

/-- `substring(s, start, length)` drops and takes, and with `length` at least the number of the
remaining characters it is `substring(s, start)`.
-/
def SubstringAgrees (ctx : Context) (c : Choices) (s : Str) (start length : Int64) : Prop :=
  fnSubstring ctx c [.str s, .int start, .int length] = .ret (dropTake s start length)
  ∧ (((runes s).length - start.toInt.toNat : Nat) ≤ length.toInt
      → fnSubstring ctx c [.str s, .int start] = fnSubstring ctx c [.str s, .int start, .int length])

theorem length_runeSpans_le (skip : Nat) (s : Bytes) : (runeSpans skip s).length ≤ s.length := by
  induction s generalizing skip with
  | nil => simp [runeSpans]
  | cons first rest ih =>
    cases skip with
    | zero => simpa [runeSpans] using ih _
    | succ skip => exact (ih skip).trans (Nat.le_succ _)

theorem ofRunes_ne_nil {rs : List Nat} (some : rs ≠ []) : ofRunes rs ≠ [] := by
  obtain ⟨r, rest, rfl⟩ := exists_cons_of_ne_nil some
  have : encodeRune r ≠ [] := by
    unfold encodeRune
    dsimp only
    split_ifs <;> exact cons_ne_nil _ _
  simp [ofRunes, this]

/-- The sum of the offsets wraps around to an empty result, and nothing else differs. -/
theorem fnSubstring_eq (ctx : Context) (c : Choices) (start length : Int64) (small : s.length < 2 ^ 63)
    : fnSubstring ctx c [.str s, .int start] = .ret (.str (ofRunes ((runes s).drop start.toInt.toNat)))
      ∧ fnSubstring ctx c [.str s, .int start, .int length]
        = .ret (if start.toInt.toNat + length.toInt < 2 ^ 63 then dropTake s start length else .str []) := by
  have fewer : (runes s).length < 2 ^ 63 := by
    rw [runes, length_map]
    exact (length_runeSpans_le 0 s).trans_lt small
  have two : fnSubstring ctx c [.str s, .int start] = substringFrom s start [] := rfl
  have three : fnSubstring ctx c [.str s, .int start, .int length] = substringFrom s start [.int length] := rfl
  rw [two, three, substringFrom, substringFrom, dropTake]
  simp only []
  generalize runes s = rs at fewer
  have size : (Int64.ofNat rs.length).toInt = rs.length := Int64.toInt_ofNat_of_lt fewer
  have first : (if start < 0 then 0 else start).toInt = (start.toInt.toNat : Int) := by
    simp only [Int64.lt_iff_toInt_lt, Int64.toInt_zero]
    split
    · rw [Int64.toInt_zero]
      omega
    · omega
  generalize Int64.ofNat rs.length = n at size
  generalize (if start < 0 then 0 else start) = i at first
  generalize start.toInt.toNat = k at first
  by_cases past : n < i
  · have : rs.length < k := by
      have := Int64.lt_iff_toInt_lt.mp past
      omega
    simp [past, drop_eq_nil_of_le this.le, ofRunes]
  · have inside : k ≤ rs.length := by
      have := mt Int64.lt_iff_toInt_lt.mpr past
      omega
    rw [if_neg past, if_neg past]
    refine ⟨?_, ?_⟩
    · simp only [runeSlice, first, size, Int.toNat_natCast, take_length]
      rfl
    · have wraps := Int64.toInt_add i length
      have range := inRange_toInt length
      change Program.ret (runeSlice _ _ _) = _
      simp only [runeSlice, Int64.lt_iff_toInt_lt, apply_ite Int64.toInt, first, size, drop_take,
        Int.toNat_natCast]
      by_cases fits : k + length.toInt < 2 ^ 63
      · rw [if_pos fits, wraps, first, bmod_of_inRange ⟨by unfold InRange at range; omega, fits⟩]
        congr 3
        rw [take_eq_take_iff, length_drop]
        split <;> split <;> omega
      · obtain ⟨m, far⟩ := bmod_eq_add (k + length.toInt)
        have sum := inRange_toInt (i + length)
        have start := inRange_toInt i
        rw [first, far] at wraps
        simp only [InRange] at *
        rw [if_neg fits, if_pos (by omega : (i + length).toInt < k), if_neg (by omega), Int.toNat_natCast,
          Nat.sub_self, take_zero]
        rfl

/-- The rest of the string is lost exactly when the offsets add up beyond the integers. -/
theorem substring_iff (ctx : Context) (c : Choices) (s : Str) (start length : Int64) (small : s.length < 2 ^ 63)
    : SubstringAgrees ctx c s start length
      ↔ start.toInt.toNat + length.toInt < 2 ^ 63 ∨ (runes s).length ≤ start.toInt.toNat := by
  obtain ⟨two, three⟩ := fnSubstring_eq ctx c start length small
  rw [SubstringAgrees, two, three]
  by_cases fits : start.toInt.toNat + length.toInt < 2 ^ 63
  · simp only [fits, if_true, true_or, iff_true, true_and]
    intro enough
    rw [dropTake, List.take_of_length_le (by rw [List.length_drop]; omega)]
  · simp only [fits, if_false, false_or]
    constructor
    · intro agrees
      by_contra rest
      have kept : ((runes s).drop start.toInt.toNat).take length.toInt.toNat ≠ [] := by
        have := inRange_toInt start
        rw [← List.length_pos_iff, List.length_take, List.length_drop]
        unfold InRange at this
        omega
      injection agrees.1 with same
      injection same with lost
      exact ofRunes_ne_nil kept lost.symm
    · intro none
      rw [dropTake, List.drop_eq_nil_of_le none, List.take_nil]
      exact ⟨rfl, fun _ => rfl⟩

theorem substring_iff_hello
    : (lit "hello").length < 2 ^ 63 ∧ SubstringAgrees .bare .ordered (lit "hello") 1 3 :=
  ⟨by decide, (substring_iff .bare .ordered (lit "hello") 1 3 (by decide)).mpr (.inl (by decide))⟩

/-- `substring('hello', 1, 9223372036854775807)` is empty, `substring('hello', 1)` is not. -/
theorem substring_wraps
    : fnSubstring .bare .ordered [.str (lit "hello"), .int 1, .int Int64.maxValue] = .ret (.str [])
      ∧ fnSubstring .bare .ordered [.str (lit "hello"), .int 1] = .ret (.str (lit "ello"))
      ∧ ¬ SubstringAgrees .bare .ordered (lit "hello") 1 Int64.maxValue := by
  have three : fnSubstring .bare .ordered [.str (lit "hello"), .int 1, .int Int64.maxValue]
      = .ret (.str []) := rfl
  have two : fnSubstring .bare .ordered [.str (lit "hello"), .int 1] = .ret (.str (lit "ello")) := rfl
  refine ⟨three, two, fun agrees => ?_⟩
  have same := agrees.2 (by decide)
  rw [two, three] at same
  injection same with same
  injection same with same
  exact absurd same (by decide)

end Substring

end Intreccio.Exec
