import Intreccio.Exec.Integers
import Intreccio.Exec.RangeScans

/-! The aggregates `min` and `max` (`internal/exec/aggregate.go`).
An accumulator keeps a value until one comes that compares as below it, or above it. The strict
comparison is transitive on the values of one kind, although integers next to floats are compared after
rounding, so what is kept is extremal and does not depend on the order. A value of another kind never
displaces the first one.
-/

namespace Intreccio.Exec

open Kv Kv.Program Words Codec Graph Binary64 List

/-- The kinds of values that compare with each other; NaN compares with no number. -/
inductive OrderKind where
  | number
  | nan
  | string
  | boolean
deriving DecidableEq

def scalarKind : Scalar → Option OrderKind
  | .null => none
  | .bool _ => some .boolean
  | .int _ => some .number
  | .float f => some (if f.isNaN then .nan else .number)
  | .str _ => some .string

/-- The kind of an integer, a float, a string or a boolean. -/
def orderKind (v : Val) : Option OrderKind := (normalize v).scalar?.bind scalarKind

/-- Equality of queries cannot tell the values apart, or both are NaN. -/
def Indistinct (v w : Val) : Prop :=
  v = w ∨ equals v w = true ∨ (orderKind v = some .nan ∧ orderKind w = some .nan)

/-- The values are all numbers other than NaN, all NaN, all strings or all booleans. -/
def OneKind (vs : List Val) : Prop := ∀ v ∈ vs, ∀ w ∈ vs, orderKind v = orderKind w

/-- The strict order of one kind is transitive. An integer is rounded next to a float, which keeps the
order of the integers.
-/
theorem precedes_trans {a b c : Scalar} (first : Precedes false a b) (second : Precedes false b c)
    : Precedes false a c := by
  have mono {x y : Int64} (le : x.toInt ≤ y.toInt) : (floatOf x).rank ≤ (floatOf y).rank :=
    rank_ofInt_mono (Graph.inRange_toInt x) (Graph.inRange_toInt y) le
  have back {x y : Int64} (lt : (floatOf x).rank < (floatOf y).rank) : x.toInt < y.toInt := by
    by_contra above
    have := mono (Int.not_lt.mp above)
    omega
  cases a <;> cases b <;> simp only [Precedes, Before, Bool.false_eq_true, false_and, or_false] at first
  all_goals cases c <;> simp only [Precedes, Before, Bool.false_eq_true, false_and, or_false] at second ⊢
  case bool.bool.bool => simp [first.2] at second
  case str.str.str => exact lt_trans first second
  case int.int.int => omega
  case int.int.float x y z => exact ⟨floatOf_not_nan x, second.2.1, (mono first.le).trans_lt second.2.2⟩
  case int.float.int x y z => exact back (first.2.2.trans second.2.2)
  case int.float.float x y z => exact ⟨first.1, second.2.1, first.2.2.trans second.2.2⟩
  case float.int.int x y z => exact ⟨first.1, floatOf_not_nan z, first.2.2.trans_le (mono second.le)⟩
  case float.int.float x y z => exact ⟨first.1, second.2.1, first.2.2.trans second.2.2⟩
  case float.float.int x y z => exact ⟨first.1, second.2.1, first.2.2.trans second.2.2⟩
  case float.float.float x y z => exact ⟨first.1, second.2.1, first.2.2.trans second.2.2⟩

/-- What is strictly below is not above. -/
theorem precedes_asymm {a b : Scalar} (below : Precedes false a b) : ¬ Precedes true b a := by
  cases a <;> cases b <;> simp only [Precedes, Before, Bool.false_eq_true, false_and, or_false] at below ⊢
  case bool.bool => simp [below]
  case str.str => rintro (above | ⟨_, rfl⟩); exacts [lt_asymm above below, lt_irrefl _ below]
  case int.int => rintro (above | ⟨_, rfl⟩) <;> omega
  all_goals rintro ⟨_, _, above | ⟨_, same⟩⟩ <;> omega

variable {u v w : Val} {c d : Scalar} {k k' : OrderKind}

theorem orderKind_eq_some : orderKind v = some k ↔ ∃ c : Scalar, normalize v = c.toVal ∧ scalarKind c = some k := by
  simp only [orderKind, Option.bind_eq_some_iff, Val.scalar?_eq_some]

theorem notNaN_of_kind (kind : scalarKind c = some k) (number : k ≠ .nan) : NotNaN c := by
  cases c with
  | float f =>
    by_contra nan
    rw [scalarKind, if_pos (Bool.eq_true_of_not_eq_false nan)] at kind
    exact number (Option.some.inj kind).symm
  | _ => trivial

theorem compareValues_of_normalize (left : normalize u = c.toVal) (right : normalize v = d.toVal)
    : compareValues u v = compareValues c.toVal d.toVal := by
  rw [compareValues, left, right]
  cases c <;> cases d <;> rfl

/-- Values of one kind other than NaN are compared, and the outcome says how they are ordered. -/
theorem placed_of_kind (left : scalarKind c = some k) (right : scalarKind d = some k) (number : k ≠ .nan)
    : ∃ o, compareValues c.toVal d.toVal = some o ∧ Places c d o := by
  have compared : ∃ o, compareValues c.toVal d.toVal = some o := by
    cases c <;> cases d <;> first | exact ⟨_, rfl⟩ | grind [scalarKind]
  obtain ⟨o, compared⟩ := compared
  exact ⟨o, compared, compareValues_places (notNaN_of_kind left number) (notNaN_of_kind right number) compared⟩

/-- Only values of one kind, and not NaN, are found below or above each other. -/
theorem kind_of_strict {o : Ordering} (compared : compareValues c.toVal d.toVal = some o) (strict : o ≠ .eq)
    : scalarKind c = scalarKind d ∧ scalarKind c ≠ some .nan := by
  have ordered {x y : Binary64} (differ : cmpFloat64 x y ≠ .eq) : x.isNaN = false ∧ y.isNaN = false := by
    rw [cmpFloat64] at differ
    constructor <;> by_contra nan <;> simp [Binary64.lt, Bool.eq_true_of_not_eq_false nan] at differ
  cases c <;> cases d <;> cases compared <;> first | simp [scalarKind, ordered strict] | simp [scalarKind]

/-- What compares as equal is equal in queries. -/
theorem equals_of_eq (left : normalize u = c.toVal) (right : normalize v = d.toVal)
    (both : Precedes true c d ∧ Precedes true d c)
    : equals u v = true := by
  have same : queryEqual u v = true := by
    rw [queryEqual, left, right]
    obtain ⟨below, above⟩ := both
    cases c <;> cases d <;> simp only [Precedes, Before, true_and] at below above
    all_goals simp only [Scalar.toVal, decide_eq_true_eq]
    case bool.bool => grind
    case str.str =>
      rcases below with below | same
      · rcases above with above | same
        · exact absurd above (lt_asymm below)
        · exact same.symm
      · exact same
    case int.int x y =>
      rcases below with below | same
      · rcases above with above | same
        · omega
        · exact same.symm
      · exact same
    all_goals
      rw [Binary64.eq_iff below.1 below.2.1, ← rank_eq_rank]
      omega
  have plain : equality u v = some (queryEqual u v) := by
    cases u <;> cases v <;> first
      | rfl
      | (simp only [queryEqual, Graph.normalize, Bool.false_eq_true] at same)
  rw [equals, plain, same]
  rfl

/-- The value would displace the other one in the accumulator. -/
def Displaces (accept : Ordering → Bool) (u v : Val) : Prop := (compareValues u v).any accept = true

/-- What the accumulator of `min` or of `max` takes over. -/
def wanted : AggKind → Ordering → Bool
  | .max => Ordering.isGT
  | _ => Ordering.isLT

variable {kind : AggKind}

/-- On one kind other than NaN a value displaces another one exactly when it is strictly below, for
`max` above.
-/
theorem displaces_iff (left : normalize u = c.toVal) (right : normalize v = d.toVal)
    (kindL : scalarKind c = some k) (kindR : scalarKind d = some k) (number : k ≠ .nan)
    : Displaces (wanted kind) u v ↔ if kind = .max then Precedes false d c else Precedes false c d := by
  obtain ⟨o, compared, places⟩ := placed_of_kind kindL kindR number
  rw [Displaces, compareValues_of_normalize left right, compared, Option.any_some]
  cases o with
  | lt =>
    have other : ¬ Precedes false d c := fun above => precedes_asymm places (precedes_weaken above)
    cases kind <;> simp_all [wanted, Places]
  | eq =>
    have other : ¬ Precedes false d c := fun above => precedes_asymm above places.1
    have other' : ¬ Precedes false c d := fun below => precedes_asymm below places.2
    cases kind <;> simp_all [wanted]
  | gt =>
    have other : ¬ Precedes false c d := fun below => precedes_asymm places (precedes_weaken below)
    cases kind <;> simp_all [wanted, Places]

/-- Only a value of its own kind displaces another one, and NaN is neither. -/
theorem kind_of_displaces (kindU : orderKind u = some k) (kindV : orderKind v = some k')
    (displaced : Displaces (wanted kind) u v)
    : k = k' ∧ k ≠ .nan := by
  obtain ⟨c, normalU, kindC⟩ := orderKind_eq_some.mp kindU
  obtain ⟨d, normalV, kindD⟩ := orderKind_eq_some.mp kindV
  rw [Displaces, compareValues_of_normalize normalU normalV] at displaced
  obtain ⟨o, compared, accepted⟩ := (Option.any_eq_true _ _).mp displaced
  have strict : o ≠ .eq := by
    rintro rfl
    cases kind <;> cases accepted
  obtain ⟨same, number⟩ := kind_of_strict compared strict
  rw [kindC, kindD, Option.some.injEq] at same
  exact ⟨same, fun nan => number (kindC.trans (congrArg some nan))⟩

/-- Displacing is transitive on one kind. -/
theorem displaces_trans (kindU : orderKind u = some k) (kindV : orderKind v = some k)
    (kindW : orderKind w = some k) (first : Displaces (wanted kind) u v) (second : Displaces (wanted kind) v w)
    : Displaces (wanted kind) u w := by
  have number := (kind_of_displaces kindU kindV first).2
  obtain ⟨a, normalU, kindA⟩ := orderKind_eq_some.mp kindU
  obtain ⟨b, normalV, kindB⟩ := orderKind_eq_some.mp kindV
  obtain ⟨c, normalW, kindC⟩ := orderKind_eq_some.mp kindW
  rw [displaces_iff normalU normalV kindA kindB number] at first
  rw [displaces_iff normalV normalW kindB kindC number] at second
  rw [displaces_iff normalU normalW kindA kindC number]
  split at first <;> rename_i which
  · rw [if_pos which] at second ⊢
    exact precedes_trans second first
  · rw [if_neg which] at second ⊢
    exact precedes_trans first second

/-- No value displaces itself. -/
theorem not_displaces_self (known : orderKind u = some k) : ¬ Displaces (wanted kind) u u := by
  intro displaced
  have number := (kind_of_displaces known known displaced).2
  obtain ⟨c, normal, kindC⟩ := orderKind_eq_some.mp known
  rw [displaces_iff normal normal kindC kindC number, ite_self] at displaced
  exact precedes_asymm displaced (precedes_weaken displaced)

/-- Values of one kind that do not displace each other are alike. -/
theorem indistinct_of_undisplaced (kindU : orderKind u = some k) (kindV : orderKind v = some k)
    (left : ¬ Displaces (wanted kind) u v) (right : ¬ Displaces (wanted kind) v u)
    : Indistinct u v := by
  by_cases number : k = .nan
  · exact .inr (.inr ⟨number ▸ kindU, number ▸ kindV⟩)
  obtain ⟨c, normalU, kindC⟩ := orderKind_eq_some.mp kindU
  obtain ⟨d, normalV, kindD⟩ := orderKind_eq_some.mp kindV
  rw [displaces_iff normalU normalV kindC kindD number] at left
  rw [displaces_iff normalV normalU kindD kindC number] at right
  obtain ⟨o, _, places⟩ := placed_of_kind kindC kindD number
  refine .inr (.inl (equals_of_eq normalU normalV ?_))
  cases o with
  | eq => exact places
  | lt => split at left <;> simp_all [Places]
  | gt => split at left <;> simp_all [Places]

/-- What is kept of a list of values, the first one being kept already. -/
def keptOf (kind : AggKind) (first : Val) (vs : List Val) : Val :=
  vs.foldl (fun old v => better (wanted kind) v old) first

/-- A value of some kind is kept unless it is displaced. -/
theorem better_eq (known : orderKind v = some k)
    : better (wanted kind) u v = if (compareValues u v).any (wanted kind) then u else v := by
  have present : isNull v = false := by
    cases v <;> first | rfl | cases known
  rw [better, present]
  rfl

/-- A value that displaces another one has its kind. -/
theorem orderKind_better (kindU : orderKind u = some k) (kindV : orderKind v = some k')
    : orderKind (better (wanted kind) u v) = some k' := by
  rw [better_eq kindV]
  split
  case isFalse => exact kindV
  case isTrue displaced =>
    rw [kindU, (kind_of_displaces kindU kindV displaced).1]

/-- What is kept has the kind of the first value. By induction on the values. -/
theorem orderKind_keptOf {vs : List Val} (known : orderKind v = some k)
    (ordered : ∀ u ∈ vs, (orderKind u).isSome = true)
    : orderKind (keptOf kind v vs) = some k := by
  induction vs generalizing v with
  | nil => exact known
  | cons u rest ih =>
    obtain ⟨k', kindU⟩ := Option.isSome_iff_exists.mp (ordered u mem_cons_self)
    exact ih (orderKind_better kindU known) (fun u' member => ordered u' (mem_cons_of_mem u member))

/-- What is kept of values of one kind is one of them and displaced by none. By induction on the values:
what is kept is the first value or displaces it, so that whatever displaces it displaces the first.
-/
theorem keptOf_extremal (kind : AggKind) {vs : List Val} (known : ∀ u ∈ v :: vs, orderKind u = some k)
    : keptOf kind v vs ∈ v :: vs ∧ (keptOf kind v vs = v ∨ Displaces (wanted kind) (keptOf kind v vs) v)
      ∧ ∀ u ∈ v :: vs, ¬ Displaces (wanted kind) u (keptOf kind v vs) := by
  induction vs generalizing v with
  | nil =>
    refine ⟨mem_cons_self, .inl rfl, fun u member => ?_⟩
    obtain rfl := mem_singleton.mp member
    exact not_displaces_self (known u member)
  | cons w rest ih =>
    have kindV := known v mem_cons_self
    have kindW := known w (mem_cons_of_mem v mem_cons_self)
    have later (u : Val) (member : u ∈ rest) := known u (mem_cons_of_mem v (mem_cons_of_mem w member))
    have step : keptOf kind v (w :: rest) = keptOf kind (better (wanted kind) w v) rest := rfl
    rw [step, better_eq kindV]
    split
    case isTrue displaced =>
      obtain ⟨member, less, least⟩ := ih (v := w) (forall_mem_cons.mpr ⟨kindW, later⟩)
      have kindR : orderKind (keptOf kind w rest) = some k := by
        rcases mem_cons.mp member with same | inside
        · rw [same, kindW]
        · exact later _ inside
      have below : Displaces (wanted kind) (keptOf kind w rest) v := by
        rcases less with same | less
        · rwa [same]
        · exact displaces_trans kindR kindW kindV less displaced
      refine ⟨mem_cons_of_mem v member, .inr below, forall_mem_cons.mpr ⟨fun above => ?_, least⟩⟩
      exact not_displaces_self kindV (displaces_trans kindV kindR kindV above below)
    case isFalse stays =>
      obtain ⟨member, less, least⟩ := ih (v := v) (forall_mem_cons.mpr ⟨kindV, later⟩)
      obtain ⟨leastV, leastRest⟩ := forall_mem_cons.mp least
      have kindR : orderKind (keptOf kind v rest) = some k := by
        rcases mem_cons.mp member with same | inside
        · rw [same, kindV]
        · exact later _ inside
      refine ⟨?_, less, forall_mem_cons.mpr ⟨leastV, forall_mem_cons.mpr ⟨fun above => ?_, leastRest⟩⟩⟩
      · rcases mem_cons.mp member with same | inside
        · exact mem_cons.mpr (.inl same)
        · exact mem_cons_of_mem v (mem_cons_of_mem w inside)
      · rcases less with same | less
        · exact stays (same ▸ above)
        · exact stays (displaces_trans kindW kindR kindV above less)

/-- The result of the aggregate over the rows. -/
def extreme (ctx : Context) (s : Store) (kind : AggKind) (arg : Ast.Expr) (rows : List Row) (c : Choices)
    : Except Err Val :=
  ((addAll ctx ⟨kind, some arg, false⟩ (newAccumulator ⟨kind, some arg, false⟩) rows c).read s).map (·.result kind)

section

variable {ctx : Context} {s : Store} {arg : Ast.Expr} {val : Row → Val} {rows : List Row}

/-- The accumulator keeps what is kept of the values. By induction on the rows. -/
theorem addAll_extreme (which : kind = .min ∨ kind = .max)
    (evaluates : ∀ b ∈ rows, ∀ c, (eval ctx arg b c).read s = .ok (val b))
    (ordered : ∀ b ∈ rows, (orderKind (val b)).isSome = true) (a : Accumulator) (c : Choices)
    : ∃ a', (addAll ctx ⟨kind, some arg, false⟩ a rows c).read s = .ok a'
      ∧ a'.result kind = keptOf kind (a.result kind) (rows.map val) := by
  induction rows generalizing a c with
  | nil => exact ⟨a, rfl, rfl⟩
  | cons b rest ih =>
    have present : isNull (val b) = false := by
      have known := ordered b mem_cons_self
      cases same : val b <;> rw [same] at known <;> first | rfl | cases known
    obtain ⟨next, took, result⟩ : ∃ next, a.addValue kind (val b) = .ok next
        ∧ next.result kind = better (wanted kind) (val b) (a.result kind) := by
      rcases which with rfl | rfl <;> exact ⟨_, rfl, rfl⟩
    have added : (a.add ctx b ⟨kind, some arg, false⟩ c.now).read s = .ok next := by
      refine (read_bind_of_ok (reads_eval _ _ _ _) (evaluates b mem_cons_self c.now)).trans ?_
      rw [present]
      exact (read_ofExcept _).trans took
    obtain ⟨a', ran, last⟩ := ih (fun b' member => evaluates b' (mem_cons_of_mem b member))
      (fun b' member => ordered b' (mem_cons_of_mem b member)) next c.later
    refine ⟨a', ?_, ?_⟩
    · rw [addAll, bind_eq, read_bind_of_ok (reads_add _ _ _ _ _) added, ran]
    · rw [last, result]
      rfl

/-- The extremes of a nonempty list. -/
theorem extreme_eq {b : Row} (which : kind = .min ∨ kind = .max)
    (evaluates : ∀ b' ∈ b :: rows, ∀ c, (eval ctx arg b' c).read s = .ok (val b'))
    (ordered : ∀ b' ∈ b :: rows, (orderKind (val b')).isSome = true) (c : Choices)
    : extreme ctx s kind arg (b :: rows) c = .ok (keptOf kind (val b) (rows.map val)) := by
  obtain ⟨a', ran, result⟩ := addAll_extreme which evaluates ordered (newAccumulator ⟨kind, some arg, false⟩) c
  rw [extreme, ran, Except.map, result]
  rcases which with rfl | rfl <;> rfl

/-- What is alike is of one kind. -/
theorem Indistinct.orderKind_eq (alike : Indistinct u v) (knownU : orderKind u = some k) (knownV : orderKind v = some k') : k = k' := by
  rcases alike with rfl | equal | ⟨nanU, nanV⟩
  · exact Option.some.inj (knownU.symm.trans knownV)
  · obtain ⟨c, normalU, kindC⟩ := orderKind_eq_some.mp knownU
    obtain ⟨d, normalV, kindD⟩ := orderKind_eq_some.mp knownV
    have same : queryEqual u v = true := by
      rw [equals, decide_eq_true_eq] at equal
      cases u <;> cases v <;> first
        | (cases knownU; done)
        | (cases knownV; done)
        | exact Option.some.inj equal
    rw [queryEqual, normalU, normalV] at same
    have numbers {x y : Binary64} (equal : x.eq y = true) : x.isNaN = false ∧ y.isNaN = false := by
      simp only [Binary64.eq, Bool.and_eq_true, Bool.not_eq_true'] at equal
      exact equal.1
    have kinds : scalarKind c = scalarKind d := by
      cases c <;> cases d <;> first | rfl | cases same | simp [scalarKind, numbers same]
    rw [kindC, kindD] at kinds
    exact Option.some.inj kinds
  · exact Option.some.inj ((knownU.symm.trans nanU).trans (nanV.symm.trans knownV))

/-- The extremes do not depend on the order of the rows exactly when the values are of one kind.
Witness for the converse: a value of each kind, put first.
-/
theorem extremes_order_free_iff (evaluates : ∀ b ∈ rows, ∀ c, (eval ctx arg b c).read s = .ok (val b))
    (ordered : ∀ b ∈ rows, (orderKind (val b)).isSome = true)
    : (∀ kind, kind = .min ∨ kind = .max → ∀ rows', rows'.Perm rows → ∀ c c', ∃ v w,
        extreme ctx s kind arg rows c = .ok v ∧ extreme ctx s kind arg rows' c' = .ok w ∧ Indistinct v w)
      ↔ OneKind (rows.map val) := by
  constructor
  · intro free
    -- with a row put first, the result has the kind of its value
    have first {b : Row} (member : b ∈ rows) {v : Val} {c : Choices} (ran : extreme ctx s .min arg rows c = .ok v)
        {k : OrderKind} (known : orderKind v = some k)
        : orderKind (val b) = some k := by
      obtain ⟨before, after, split⟩ := append_of_mem member
      have moved : (b :: (before ++ after)).Perm rows := split ▸ perm_middle.symm
      have among (b' : Row) (inside : b' ∈ b :: (before ++ after)) : b' ∈ rows := moved.mem_iff.mp inside
      obtain ⟨k', kindB⟩ := Option.isSome_iff_exists.mp (ordered b member)
      obtain ⟨v', w, ran', ranW, alike⟩ := free .min (.inl rfl) _ moved c c
      rw [extreme_eq (.inl rfl) (fun b' inside => evaluates b' (among b' inside))
        (fun b' inside => ordered b' (among b' inside)), Except.ok.injEq] at ranW
      obtain rfl := Except.ok.inj (ran.symm.trans ran')
      have kindW : orderKind w = some k' := by
        rw [← ranW]
        refine orderKind_keptOf kindB (fun u listed => ?_)
        obtain ⟨b', inside, rfl⟩ := mem_map.mp listed
        exact ordered b' (among b' (mem_cons_of_mem b inside))
      rw [kindB, alike.orderKind_eq known kindW]
    intro v left w right
    obtain ⟨b, memberB, rfl⟩ := mem_map.mp left
    obtain ⟨b', memberB', rfl⟩ := mem_map.mp right
    obtain ⟨v, _, ran, _⟩ := free .min (.inl rfl) rows (.refl rows) .ordered .ordered
    obtain ⟨k, known⟩ : ∃ k, orderKind v = some k := by
      cases rows with
      | nil => cases memberB
      | cons head rest =>
        obtain ⟨k, kindF⟩ := Option.isSome_iff_exists.mp (ordered head mem_cons_self)
        rw [extreme_eq (.inl rfl) evaluates ordered, Except.ok.injEq] at ran
        refine ⟨k, ran ▸ orderKind_keptOf kindF (fun u listed => ?_)⟩
        obtain ⟨b', inside, rfl⟩ := mem_map.mp listed
        exact ordered b' (mem_cons_of_mem head inside)
    rw [first memberB ran known, first memberB' ran known]
  · intro one kind which rows' moved c c'
    cases rows with
    | nil =>
      obtain rfl := moved.eq_nil
      rcases which with rfl | rfl <;> exact ⟨.null, .null, rfl, rfl, .inl rfl⟩
    | cons b rest =>
      cases rows' with
      | nil => cases moved.symm.eq_nil
      | cons b' rest' =>
        have among (x : Row) (inside : x ∈ b' :: rest') : x ∈ b :: rest := moved.mem_iff.mp inside
        obtain ⟨k, kindB⟩ := Option.isSome_iff_exists.mp (ordered b mem_cons_self)
        have known (u : Val) (listed : u ∈ (b :: rest).map val) : orderKind u = some k :=
          (one u listed (val b) (mem_map_of_mem mem_cons_self)).trans kindB
        have values : ((b' :: rest').map val).Perm ((b :: rest).map val) := moved.map val
        have known' (u : Val) (listed : u ∈ (b' :: rest').map val) : orderKind u = some k :=
          known u (values.mem_iff.mp listed)
        obtain ⟨member, _, least⟩ := keptOf_extremal kind known
        obtain ⟨member', _, least'⟩ := keptOf_extremal kind known'
        refine ⟨_, _, extreme_eq which evaluates ordered c, extreme_eq which
          (fun x inside => evaluates x (among x inside)) (fun x inside => ordered x (among x inside)) c', ?_⟩
        exact indistinct_of_undisplaced (known _ member) (known' _ member')
          (least' _ (values.mem_iff.mpr member)) (least _ (values.mem_iff.mp member'))

end

/-- A row that binds one name. -/
def rowWith (v : Val) : Row := OrderedMap.empty.set (lit "x") v

theorem extremes_of_numbers
    : ∃ v w,
        extreme .bare .empty .min (.var (lit "x")) [rowWith (.int 2), rowWith (.float (floatOf 1))] .ordered = .ok v
        ∧ extreme .bare .empty .min (.var (lit "x")) [rowWith (.float (floatOf 1)), rowWith (.int 2)] .ordered = .ok w
        ∧ Indistinct v w := by
  have evaluates : ∀ b ∈ [rowWith (.int 2), rowWith (.float (floatOf 1))], ∀ c,
      (eval .bare (.var (lit "x")) b c).read .empty = .ok (cell b (lit "x")) := by
    simp only [forall_mem_cons]
    exact ⟨fun _ => rfl, fun _ => rfl, nofun⟩
  have one := (extremes_order_free_iff evaluates (by decide +kernel)).mpr (by unfold OneKind; decide +kernel)
  exact one .min (.inl rfl) _ (.swap _ _ _) .ordered .ordered

/-- A string is kept where it comes first, and a number where that does. -/
theorem not_extremes_order_free
    : ¬ ∀ rows : List Row, (∀ b ∈ rows, (orderKind (cell b (lit "x"))).isSome = true) → ∀ rows', rows'.Perm rows
      → ∃ v w, extreme .bare .empty .min (.var (lit "x")) rows .ordered = .ok v
        ∧ extreme .bare .empty .min (.var (lit "x")) rows' .ordered = .ok w ∧ Indistinct v w := by
  intro free
  obtain ⟨v, w, ran, ran', alike⟩ := free [rowWith (.int 1), rowWith (.str (lit "a"))] (by decide +kernel)
    [rowWith (.str (lit "a")), rowWith (.int 1)] (.swap _ _ _)
  obtain rfl : v = .int 1 := Except.ok.inj (ran.symm.trans rfl)
  obtain rfl : w = .str (lit "a") := Except.ok.inj (ran'.symm.trans rfl)
  have same : OrderKind.number = .string := alike.orderKind_eq rfl rfl
  cases same

end Intreccio.Exec
