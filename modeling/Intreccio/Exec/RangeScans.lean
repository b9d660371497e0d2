import Intreccio.Exec.Values
import Intreccio.Graph.RangeBounds

/-! Range scans of the executor (`internal/exec/eval.go`): the comparisons of the language order
values as the bounds of a range scan do, so a scan finds every node that a comparison accepts.
-/

namespace Intreccio.Exec

open Kv Kv.Program Words Codec Graph Binary64

/-- What an outcome of a comparison says about the order of two values. -/
def Places (c d : Scalar) : Ordering → Prop
  | .lt => Precedes false c d
  | .eq => Precedes true c d ∧ Precedes true d c
  | .gt => Precedes false d c

theorem precedes_weaken {c d : Scalar} (order : Precedes false c d) : Precedes true c d := by
  cases c <;> cases d <;> simp_all [Precedes, Before]

/-- The outcomes of a comparison by two tests. -/
theorem placed {c d : Scalar} {below above : Prop} [Decidable below] [Decidable above]
    (lt : below → Places c d .lt) (gt : above → Places c d .gt) (eq : ¬ below → ¬ above → Places c d .eq)
    : Places c d (if below then .lt else if above then .gt else .eq) := by
  split
  case isTrue low => exact lt low
  case isFalse notLow =>
    split
    case isTrue high => exact gt high
    case isFalse notHigh => exact eq notLow notHigh

theorem cmpFloat64_places {x y : Binary64} (left : x.isNaN = false) (right : y.isNaN = false)
    : Places (.float x) (.float y) (cmpFloat64 x y) := by
  refine placed (fun low => ?_) (fun high => ?_) (fun notLow notHigh => ?_)
  · exact ⟨left, right, Or.inl ((lt_iff_rank left right).mp low)⟩
  · exact ⟨right, left, Or.inl ((lt_iff_rank right left).mp high)⟩
  · rw [lt_iff_rank left right] at notLow
    rw [lt_iff_rank right left] at notHigh
    exact ⟨⟨left, right, Or.inr ⟨rfl, by omega⟩⟩, ⟨right, left, Or.inr ⟨rfl, by omega⟩⟩⟩

theorem cmpInt64_places (x y : Int64) : Places (.int x) (.int y) (cmpInt64 x y) := by
  refine placed (fun low => ?_) (fun high => ?_) (fun notLow notHigh => ?_)
  · exact Or.inl (Int64.lt_iff_toInt_lt.mp low)
  · exact Or.inl (Int64.lt_iff_toInt_lt.mp high)
  · rw [Int64.lt_iff_toInt_lt] at notLow notHigh
    obtain rfl : x = y := Int64.toInt_inj.mp (by omega)
    exact ⟨Or.inr ⟨rfl, rfl⟩, Or.inr ⟨rfl, rfl⟩⟩

theorem cmpStr_places (x y : Str) : Places (.str x) (.str y) (cmpStr x y) := by
  refine placed (fun low => Or.inl low) (fun high => Or.inl high) (fun notLow notHigh => ?_)
  obtain rfl : x = y := le_antisymm (not_lt.mp notHigh) (not_lt.mp notLow)
  exact ⟨Or.inr ⟨rfl, rfl⟩, Or.inr ⟨rfl, rfl⟩⟩

/-- Comparing two scalars places them in the order of the bounds. -/
theorem compareValues_places {c d : Scalar} {o : Ordering} (left : NotNaN c) (right : NotNaN d)
    (compared : compareValues c.toVal d.toVal = some o)
    : Places c d o := by
  cases c <;> cases d
  case bool.bool x y =>
    obtain rfl := Option.some.inj compared
    cases x <;> cases y <;> simp [cmpBool, Places, Precedes]
  case int.int x y =>
    obtain rfl := Option.some.inj compared
    exact cmpInt64_places x y
  case int.float x y =>
    obtain rfl := Option.some.inj compared
    exact cmpFloat64_places (floatOf_not_nan x) right
  case float.int x y =>
    obtain rfl := Option.some.inj compared
    exact cmpFloat64_places left (floatOf_not_nan y)
  case float.float x y =>
    obtain rfl := Option.some.inj compared
    exact cmpFloat64_places left right
  case str.str x y =>
    obtain rfl := Option.some.inj compared
    exact cmpStr_places x y
  all_goals cases compared

theorem scalars_of_compareValues {a b : Val} {o : Ordering} (compared : compareValues a b = some o)
    : ∃ c d : Scalar, normalize a = c.toVal ∧ normalize b = d.toVal := by
  rw [compareValues] at compared
  split at compared
  case h_1 x y left right => exact ⟨.int x, .int y, left, right⟩
  case h_2 x y left right => exact ⟨.int x, .float y, left, right⟩
  case h_3 x y left right => exact ⟨.float x, .int y, left, right⟩
  case h_4 x y left right => exact ⟨.float x, .float y, left, right⟩
  case h_5 x y left right => exact ⟨.str x, .str y, left, right⟩
  case h_6 x y left right => exact ⟨.bool x, .bool y, left, right⟩
  case h_7 => cases compared

theorem notNaN_of_isNaNValue {c : Scalar} (number : isNaNValue c.toVal = false) : NotNaN c := by
  cases c with
  | float f => exact number
  | _ => trivial

/-- A comparison that holds is one of two scalars, in the order that the outcome says. -/
theorem places_of_compareOp {accept : Ordering → Bool} {a b : Val}
    (holds : compareOp accept a b = .bool true)
    : ∃ (c d : Scalar) (o : Ordering), normalize a = c.toVal ∧ normalize b = d.toVal ∧ Places c d o
      ∧ accept o = true := by
  simp only [compareOp] at holds
  split at holds
  case isTrue => cases holds
  case isFalse =>
    split at holds
    case isTrue => cases holds
    case isFalse numbers =>
      split at holds
      case h_1 => cases holds
      case h_2 o compared =>
        obtain ⟨c, d, left, right⟩ := scalars_of_compareValues compared
        rw [normalize_normalize] at left right
        rw [left, right] at numbers compared
        obtain ⟨number, number'⟩ : isNaNValue c.toVal = false ∧ isNaNValue d.toVal = false := by
          simpa using numbers
        exact ⟨c, d, o, left, right,
          compareValues_places (notNaN_of_isNaNValue number) (notNaN_of_isNaNValue number') compared,
          Val.bool.inj holds⟩

/-- `>` and `>=`. -/
def aboveOp (inclusive : Bool) : Ordering → Bool := if inclusive then Ordering.isGE else Ordering.isGT

/-- `<` and `<=`. -/
def belowOp (inclusive : Bool) : Ordering → Bool := if inclusive then Ordering.isLE else Ordering.isLT

theorem precedes_of_above {inclusive : Bool} {v b : Val}
    (holds : compareOp (aboveOp inclusive) v b = .bool true)
    : ∃ c d : Scalar, normalize v = c.toVal ∧ normalize b = d.toVal ∧ Precedes inclusive d c := by
  obtain ⟨c, d, o, left, right, places, accepted⟩ := places_of_compareOp holds
  refine ⟨c, d, left, right, ?_⟩
  cases inclusive with
  | false =>
    cases o with
    | gt => exact places
    | _ => cases accepted
  | true =>
    cases o with
    | lt => cases accepted
    | eq => exact places.2
    | gt => exact precedes_weaken places

theorem precedes_of_below {inclusive : Bool} {v b : Val}
    (holds : compareOp (belowOp inclusive) v b = .bool true)
    : ∃ c d : Scalar, normalize v = c.toVal ∧ normalize b = d.toVal ∧ Precedes inclusive c d := by
  obtain ⟨c, d, o, left, right, places, accepted⟩ := places_of_compareOp holds
  refine ⟨c, d, left, right, ?_⟩
  cases inclusive with
  | false =>
    cases o with
    | lt => exact places
    | _ => cases accepted
  | true =>
    cases o with
    | lt => exact precedes_weaken places
    | eq => exact places.1
    | gt => cases accepted

/-- The value starts with the string of the range, or satisfies the comparisons with its bounds. -/
def Satisfies (r : PropRange) (v : Val) : Prop :=
  match r.startsWith with
  | some p => stringPredicate (fun s p => p.isPrefixOf s) v (.str p) = .bool true
  | none =>
    (∀ b i, r.lower = some (b, i) → compareOp (aboveOp i) v b = .bool true)
    ∧ ∀ b i, r.upper = some (b, i) → compareOp (belowOp i) v b = .bool true

/-- What satisfies a range is a scalar that meets it. -/
theorem meets_of_satisfies {r : PropRange} {v : Val} (given : r.Given) (satisfies : Satisfies r v)
    : ∃ c : Scalar, normalize v = c.toVal ∧ Meets r c := by
  rw [Satisfies] at satisfies
  split at satisfies
  case h_1 p starts =>
    cases v with
    | str t =>
      refine ⟨.str t, rfl, ?_⟩
      rw [Meets, starts]
      exact ⟨t, rfl, List.isPrefixOf_iff_prefix.mp (Val.bool.inj satisfies)⟩
    | _ => cases satisfies
  case h_2 plain =>
    obtain ⟨low, high⟩ := satisfies
    obtain ⟨c, same⟩ : ∃ c : Scalar, normalize v = c.toVal := by
      rcases lower : r.lower with _ | ⟨b, i⟩
      · rcases upper : r.upper with _ | ⟨b, i⟩
        · simp [PropRange.Given, plain, lower, upper] at given
        · obtain ⟨c, d, same, _⟩ := precedes_of_below (high b i upper)
          exact ⟨c, same⟩
      · obtain ⟨c, d, same, _⟩ := precedes_of_above (low b i lower)
        exact ⟨c, same⟩
    refine ⟨c, same, ?_⟩
    rw [Meets, plain]
    refine ⟨fun b i bound => ?_, fun b i bound => ?_⟩
    · obtain ⟨⟨b, i⟩, lower, made⟩ := Option.map_eq_some_iff.mp bound
      cases made
      obtain ⟨c', d, same', converted, order⟩ := precedes_of_above (low b i lower)
      obtain rfl : c = c' := toVal_inj.mp (same.symm.trans same')
      exact ⟨d, converted, order⟩
    · obtain ⟨⟨b, i⟩, upper, made⟩ := Option.map_eq_some_iff.mp bound
      cases made
      obtain ⟨c', d, same', converted, order⟩ := precedes_of_below (high b i upper)
      obtain rfl : c = c' := toVal_inj.mp (same.symm.trans same')
      exact ⟨d, converted, order⟩

variable {s : Store}

/-- A range scan never misses a match: the cursor returns the nodes with the label and a value that
satisfies the range, and others, each once and all with the label; and without a cursor no value
satisfies the range.
-/
theorem range_scan_complete (consistent : IndexConsistent s) (l k : UInt32) (indexed : Indexed s l k)
    (r : PropRange) (given : r.Given)
    : ∃ result, (scanPropertyRange l k r).run s = (.ok result, s)
      ∧ match result with
        | none => ∀ v, ¬ Satisfies r v
        | some cur => ∃ nodes, Yields s cur nodes ∧ (nodes.map Node.id).Nodup
            ∧ (∀ n v, NodeHolds s l k n v → Satisfies r v → n ∈ nodes.map Node.id)
            ∧ ∀ node ∈ nodes, Graph.nodeAt s node.id = some node.toNodeRecord ∧ l ∈ node.labels := by
  simp only [scanPropertyRange]
  cases mapped : rangeBands l k r with
  | none =>
    refine ⟨none, rfl, fun v satisfies => ?_⟩
    obtain ⟨c, _, met⟩ := meets_of_satisfies given satisfies
    exact not_meets_of_rangeBands given mapped c met
  | some bands =>
    obtain ⟨apart, covered⟩ := rangeBands_cover given mapped
    obtain ⟨nodes, yields, once, labelled, listed⟩ := yields_bands consistent apart
    refine ⟨some (.ranges (bands.map (BandPlan.segment s))), ?_, nodes, yields, once, ?_, labelled⟩
    · simp only [bind_eq, pure_eq]
      rw [run_bind_of_ok (run_openBands bands)]
      rfl
    · intro n v holds satisfies
      obtain ⟨c, same, met⟩ := meets_of_satisfies given satisfies
      obtain rfl : v = c.toVal := by
        rw [← same]
        cases v with
        | goInt i => exact absurd rfl ((recorded_nodes l k).native n _ i holds)
        | _ => rfl
      obtain ⟨p, member, accept, covers, accepted⟩ := covered c met
      exact listed p member (c, n) (mem_listed consistent indexed covers accepted holds)

/-- The first transaction's node is returned by a scan above a smaller float. -/
theorem range_scan_complete_founded
    : IndexConsistent founded ∧ Indexed founded 1 1
      ∧ ∃ result, (scanPropertyRange 1 1 ⟨some (.float (.ofInt 4), false), none, none⟩).run founded
          = (.ok result, founded)
        ∧ match result with
          | none => ∀ v, ¬ Satisfies ⟨some (.float (.ofInt 4), false), none, none⟩ v
          | some cur => ∃ nodes, Yields founded cur nodes ∧ (nodes.map Node.id).Nodup
              ∧ (∀ n v, NodeHolds founded 1 1 n v
                  → Satisfies ⟨some (.float (.ofInt 4), false), none, none⟩ v → n ∈ nodes.map Node.id)
              ∧ ∀ node ∈ nodes, Graph.nodeAt founded node.id = some node.toNodeRecord ∧ 1 ∈ node.labels := by
  have consistent := ((reached_founded guarded_founding).sound (fun _ => Op.Permitted.respects)
    few_founded).2.index
  have indexed : Indexed founded 1 1 := Option.isSome_iff_ne_none.mp (by decide)
  exact ⟨consistent, indexed, range_scan_complete consistent 1 1 indexed _ (Or.inr (Or.inl (by simp)))⟩

end Intreccio.Exec
