import Intreccio.Foundation.SortRoutes
import Intreccio.Exec.Denotation

/-! ORDER BY (`sortOp.load` of `internal/exec/exec.go`).
The comparison of two rows skips the keys whose values cannot be compared, so it need not be an order:
a row with a null key ties with every other row. The sort is right for all lists of given rows exactly
when no such ties lead around two rows that the keys put in order, or past two rows with equal keys.
-/

namespace Intreccio.Exec

open Kv Kv.Program Words Graph Ast Plan List

/-- The first key that tells the rows apart decides. -/
def before (value : Row → Expr → Val) : List SortKey → Row → Row → Bool
  | [], _, _ => false
  | k :: rest, x, y =>
    match compareValues (value x k.expr) (value y k.expr) with
    | some .lt => !k.desc
    | some .gt => k.desc
    | _ => before value rest x y

/-- The keys of an ORDER BY. -/
def sortKeys (orderBy : List SortItem) : List SortKey := orderBy.map (fun k => ⟨k.expr, k.desc⟩)

/-- The values of each key are of one kind, and neither null nor NaN. -/
def Comparable (value : Row → Expr → Val) (keys : List SortKey) (x y : Row) : Prop :=
  ∀ k ∈ keys, compareValues (value x k.expr) (value y k.expr) ≠ none
    ∧ isNaNValue (normalize (value x k.expr)) = false ∧ isNaNValue (normalize (value y k.expr)) = false

/-- The values of each key are the same, or compare as equal. -/
def EqualKeys (value : Row → Expr → Val) (keys : List SortKey) (x y : Row) : Prop :=
  ∀ k ∈ keys, value x k.expr = value y k.expr
    ∨ compareValues (value x k.expr) (value y k.expr) = some .eq
      ∧ isNaNValue (normalize (value x k.expr)) = false ∧ isNaNValue (normalize (value y k.expr)) = false

/-- The rows, sorted: rows with comparable keys stand in order, rows with equal keys keep their order. -/
structure Sorted (value : Row → Expr → Val) (keys : List SortKey) (rows out : List Row) : Prop where
  perm : out.Perm rows
  ordered : out.Pairwise (fun x y => Comparable value keys x y → before value keys y x = false)
  stable : ∀ p : Row → Bool,
    (∀ x ∈ rows, ∀ y ∈ rows, p x = true → p y = true → EqualKeys value keys x y) → out.filter p = rows.filter p

/-- A comparison by two strict relations that exclude each other turns around with its sides. -/
theorem swap_decided {p q : Prop} [Decidable p] [Decidable q] (apart : p → ¬ q)
    : (if q then .lt else if p then .gt else .eq : Ordering)
      = (if p then .lt else if q then .gt else .eq : Ordering).swap := by
  by_cases left : p
  · rw [if_pos left, if_neg (apart left), if_pos left]
    rfl
  · rw [if_neg left, if_neg left]
    split <;> rfl

theorem cmpFloat64_swap (a b : Binary64) : cmpFloat64 b a = (cmpFloat64 a b).swap := by
  refine swap_decided (fun less more => ?_)
  simp only [Binary64.lt, Bool.and_eq_true, decide_eq_true_eq] at less more
  omega

theorem cmpInt64_swap (a b : Int64) : cmpInt64 b a = (cmpInt64 a b).swap :=
  swap_decided (fun less more => Int64.lt_asymm less more)

theorem cmpStr_swap (a b : Str) : cmpStr b a = (cmpStr a b).swap :=
  swap_decided (fun less more => lt_asymm less more)

theorem cmpBool_swap (a b : Bool) : cmpBool b a = (cmpBool a b).swap := by
  cases a <;> cases b <;> rfl

theorem compareValues_swap (a b : Val) : compareValues b a = (compareValues a b).map Ordering.swap := by
  unfold compareValues
  cases normalize a <;> cases normalize b <;>
    first
    | rfl
    | exact congrArg some (cmpInt64_swap _ _)
    | exact congrArg some (cmpFloat64_swap _ _)
    | exact congrArg some (cmpStr_swap _ _)
    | exact congrArg some (cmpBool_swap _ _)

theorem compareValues_self (a : Val) {o : Ordering} (compared : compareValues a a = some o) : o = .eq := by
  have swapped := compareValues_swap a a
  rw [compared] at swapped
  cases o with
  | eq => rfl
  | lt | gt => cases swapped

variable {value : Row → Expr → Val} {keys : List SortKey}

theorem before_asymm {x y : Row} (less : before value keys x y = true) : before value keys y x = false := by
  induction keys with
  | nil => rfl
  | cons k rest ih =>
    simp only [before] at less ⊢
    rw [compareValues_swap (value x k.expr)]
    cases compared : compareValues (value x k.expr) (value y k.expr) with
    | none =>
      rw [compared] at less
      exact ih less
    | some o =>
      rw [compared] at less
      cases o with
      | lt => simpa using less
      | gt => simpa using less
      | eq => exact ih less

theorem before_of_equalKeys {x y : Row} (equal : EqualKeys value keys x y) : before value keys x y = false := by
  induction keys with
  | nil => rfl
  | cons k rest ih =>
    have later := ih (fun k member => equal k (mem_cons_of_mem _ member))
    have here : compareValues (value x k.expr) (value y k.expr) = none
        ∨ compareValues (value x k.expr) (value y k.expr) = some .eq := by
      rcases equal k mem_cons_self with same | ⟨same, _⟩
      · rw [same]
        cases compared : compareValues (value y k.expr) (value y k.expr) with
        | none => exact .inl rfl
        | some o => exact .inr (congrArg some (compareValues_self _ compared))
      · exact .inr same
    simp only [before]
    rcases here with same | same <;> rw [same] <;> exact later

theorem Comparable.symm {x y : Row} (comparable : Comparable value keys x y) : Comparable value keys y x := by
  intro k member
  obtain ⟨compared, left, right⟩ := comparable k member
  refine ⟨fun failed => compared ?_, right, left⟩
  rw [compareValues_swap (value y k.expr), failed]
  rfl

theorem EqualKeys.symm {x y : Row} (equal : EqualKeys value keys x y) : EqualKeys value keys y x := by
  intro k member
  refine (equal k member).imp Eq.symm (fun ⟨same, left, right⟩ => ⟨?_, right, left⟩)
  rw [compareValues_swap (value x k.expr), same]
  rfl

/-- The keys of the given rows have the given values, whatever is drawn at random. -/
def KeyValues (ctx : Context) (s : Store) (S : Set Row) (keys : List SortKey) (value : Row → Expr → Val)
    : Prop :=
  ∀ r ∈ S, ∀ k ∈ keys, ∀ c, (sortValue ctx r k.expr c).read s = .ok (value r k.expr)

/-- The computation answers, without a change to the store. -/
def AnswersAlong (s : Store) {β : Type} (p : StateT Choices Txn β) (Q : β → Prop) : Prop :=
  ∀ c, ∃ b c', (p c).run s = (.ok (b, c'), s) ∧ Q b

theorem answersAlong_pure {s : Store} {β : Type} {Q : β → Prop} (b : β) (holds : Q b)
    : AnswersAlong s (pure b) Q :=
  fun c => ⟨b, c, rfl, holds⟩

theorem AnswersAlong.bind {s : Store} {β γ : Type} {P : β → Prop} {Q : γ → Prop} {p : StateT Choices Txn β}
    {f : β → StateT Choices Txn γ} (first : AnswersAlong s p P) (rest : ∀ b, P b → AnswersAlong s (f b) Q)
    : AnswersAlong s (p >>= f) Q := by
  intro c
  obtain ⟨b, c', ran, holds⟩ := first c
  obtain ⟨r, c'', ran', holds'⟩ := rest b holds c'
  exact ⟨r, c'', (run_bind_of_ok ran).trans ran', holds'⟩

def beforeIn (S : Set Row) (value : Row → Expr → Val) (keys : List SortKey) (x y : S) : Bool :=
  before value keys x y

variable {ctx : Context} {s : Store} {S : Set Row}

theorem sortLess_read (keyed : KeyValues ctx s S keys value) (x y : S) (c : Choices)
    : (sortLess ctx x y keys c).run s = (.ok (before value keys x y), s) := by
  induction keys generalizing c with
  | nil => rfl
  | cons k rest ih =>
    have first := keyed x x.2 k mem_cons_self (c.now.sub 0)
    have second := keyed y y.2 k mem_cons_self (c.now.sub 1)
    have later := ih (fun r member k inRest => keyed r member k (mem_cons_of_mem _ inRest)) c.later
    simp only [sortLess, before]
    refine (run_bind_of_ok ((reads_sortValue _ _ _ _).run_eq.trans (congrArg (·, s) first))).trans ?_
    refine (run_bind_of_ok ((reads_sortValue _ _ _ _).run_eq.trans (congrArg (·, s) second))).trans ?_
    rcases compareValues (value x k.expr) (value y k.expr) with - | - | - | -
    · exact later
    · rfl
    · exact later
    · rfl

theorem sortRows_read (keyed : KeyValues ctx s S keys value) (l : List S) (c : Choices)
    : (sortRows ctx keys (l.map Subtype.val) c).read s
      = .ok ((StableSort.sortBy (beforeIn S value keys) l).map Subtype.val) := by
  have compare (x y : S)
      : AnswersAlong s (fun c => do let r ← sortLess ctx x.1 y.1 keys c.now; return (r, c.later))
          (· = beforeIn S value keys x y) :=
    fun c => ⟨_, c.later, run_bind_of_ok (sortLess_read keyed x y c.now), rfl⟩
  have simulates : AnswersAlong s
      (StableSort.sliceStable (fun x y c => do let r ← sortLess ctx x y keys c.now; return (r, c.later))
        (l.map Subtype.val))
      (· = (StableSort.sortBy (beforeIn S value keys) l).map Subtype.val) :=
    StableSort.sliceStable_simulates answersAlong_pure AnswersAlong.bind compare l
  obtain ⟨out, c', ran, same⟩ := simulates c
  subst same
  exact congrArg Prod.fst (run_bind_of_ok ran)

/-- Nothing leads from a row back to one that the keys put before it, and no row overtakes one with
equal keys.
-/
structure OrderlyKeys (S : Set Row) (value : Row → Expr → Val) (keys : List SortKey) : Prop where
  ahead : ∀ x y : S, Comparable value keys x y → before value keys x y = true
    → ¬ StableSort.Leads (beforeIn S value keys) y x
  level : ∀ x y : S, EqualKeys value keys x y → x ≠ y → ¬ StableSort.Overtakes (beforeIn S value keys) y x

/-- Rows with equal keys keep their order as rows exactly when they do as given rows: outside the given rows,
and outside the list, a predicate on rows does not matter.
-/
theorem keeps_map_iff {l out : List S} {Equal : Row → Row → Prop} (perm : out.Perm l)
    : (∀ p : Row → Bool, (∀ x ∈ l.map Subtype.val, ∀ y ∈ l.map Subtype.val, p x = true → p y = true → Equal x y)
        → (out.map Subtype.val).filter p = (l.map Subtype.val).filter p)
      ↔ ∀ p : S → Bool, (∀ x y : S, p x = true → p y = true → Equal x y) → out.filter p = l.filter p := by
  classical
  have map_filter (p : Row → Bool) (l : List S)
      : (l.map Subtype.val).filter p = (l.filter (p ∘ Subtype.val)).map Subtype.val :=
    filter_map
  constructor
  · intro keeps p equal
    let p' : Row → Bool := fun r => decide (∃ x : S, x.1 = r ∧ p x = true)
    have agrees : p' ∘ Subtype.val = p := by
      funext x
      refine Bool.eq_iff_iff.mpr (decide_eq_true_iff.trans ⟨?_, fun good => ⟨x, rfl, good⟩⟩)
      rintro ⟨y, same, good⟩
      exact Subtype.ext same ▸ good
    have kept := keeps p' (fun x _ y _ good good' => ?_)
    · rw [map_filter, map_filter, agrees] at kept
      exact map_injective_iff.mpr Subtype.val_injective kept
    · obtain ⟨u, rfl, left⟩ := of_decide_eq_true good
      obtain ⟨v, rfl, right⟩ := of_decide_eq_true good'
      exact equal u v left right
  · intro keeps p equal
    let p' : S → Bool := fun x => p x && decide (x ∈ l)
    have agrees (l' : List S) (among : ∀ x ∈ l', x ∈ l) : l'.filter (p ∘ Subtype.val) = l'.filter p' :=
      filter_congr (fun x member => by simp [p', among x member])
    have kept := keeps p' (fun x y good good' => ?_)
    · rw [map_filter, map_filter, agrees l (fun _ => id), agrees out (fun x => perm.mem_iff.mp), kept]
    · simp only [p', Bool.and_eq_true, decide_eq_true_eq] at good good'
      exact equal x (mem_map_of_mem good.2) y (mem_map_of_mem good'.2) good.1 good'.1

theorem exists_given {rows : List Row} (given : ∀ r ∈ rows, r ∈ S) : ∃ l : List S, l.map Subtype.val = rows :=
  ⟨rows.attachWith (· ∈ S) given, by simp⟩

/-- Rows with keys of fixed values are sorted by these. -/
theorem sortRows_fixed (keyed : KeyValues ctx s S keys value) {rows : List Row} (within : ∀ r ∈ rows, r ∈ S)
    (c : Choices)
    : (sortRows ctx keys rows c).read s = .ok (StableSort.sortBy (before value keys) rows) := by
  obtain ⟨l, rfl⟩ := exists_given within
  rw [sortRows_read keyed, StableSort.sortBy_map]
  rfl

/-- ORDER BY sorts every list of given rows exactly when their keys are orderly. -/
theorem sorted_iff_orderlyKeys (keyed : KeyValues ctx s S keys value)
    : (∀ rows : List Row, (∀ r ∈ rows, r ∈ S) → ∀ c,
        ∃ out, (sortRows ctx keys rows c).read s = .ok out ∧ Sorted value keys rows out)
      ↔ OrderlyKeys S value keys := by
  have asymm (x y : S) (less : beforeIn S value keys x y = true) : beforeIn S value keys y x = false :=
    before_asymm less
  have perm (l : List S) := (StableSort.sortBy_arranges (beforeIn S value keys) l).perm
  have ordered : (∀ l, (StableSort.sortBy (beforeIn S value keys) l).Pairwise
        (fun x y : S => ¬ (Comparable value keys y x ∧ before value keys y x = true)))
      ↔ ∀ x y : S, Comparable value keys x y ∧ before value keys x y = true
        → ¬ StableSort.Leads (beforeIn S value keys) y x :=
    StableSort.sortBy_ordered_iff asymm (fun x y both => both.2)
  have stable : (∀ (l : List S) (p : S → Bool),
        (∀ x y : S, p x = true → p y = true → EqualKeys value keys x y)
          → (StableSort.sortBy (beforeIn S value keys) l).filter p = l.filter p)
      ↔ ∀ x y : S, EqualKeys value keys x y → x ≠ y → ¬ StableSort.Overtakes (beforeIn S value keys) y x :=
    StableSort.sortBy_stable_iff asymm (fun x y => EqualKeys.symm) (fun x y _ k _ => .inl rfl)
  constructor
  · intro sorts
    have sorted (l : List S) : Sorted value keys (l.map Subtype.val)
        ((StableSort.sortBy (beforeIn S value keys) l).map Subtype.val) := by
      have given (r : Row) (member : r ∈ l.map Subtype.val) : r ∈ S := by
        obtain ⟨x, _, rfl⟩ := List.mem_map.mp member
        exact x.2
      obtain ⟨out, ran, sorted⟩ := sorts _ given .ordered
      rw [sortRows_read keyed l] at ran
      cases ran
      exact sorted
    refine ⟨fun x y comparable less => ordered.mp (fun l => ?_) x y ⟨comparable, less⟩, stable.mp (fun l => ?_)⟩
    · refine (List.pairwise_map.mp (sorted l).ordered).imp (fun inOrder both => ?_)
      exact Bool.false_ne_true ((inOrder both.1.symm).symm.trans both.2)
    · exact (keeps_map_iff (perm l)).mp (sorted l).stable
  · intro orderly rows given c
    obtain ⟨l, rfl⟩ := exists_given given
    refine ⟨_, sortRows_read keyed l c, (perm l).map _, List.pairwise_map.mpr ?_, ?_⟩
    · refine (ordered.mpr (fun x y both => orderly.ahead x y both.1 both.2) l).imp ?_
      exact fun apart comparable => Bool.eq_false_iff.mpr fun less => apart ⟨comparable.symm, less⟩
    · exact (keeps_map_iff (perm l)).mpr (stable.mpr orderly.level l)

/-- Keys are orderly where a row between two others is told apart from one of them. -/
theorem orderlyKeys_of_cotrans
    (cotrans : ∀ x ∈ S, ∀ y ∈ S, ∀ z ∈ S, before value keys x z = true
      → before value keys x y = true ∨ before value keys y z = true)
    : OrderlyKeys S value keys := by
  have cotrans' (x y z : S) (less : beforeIn S value keys x z = true)
      : beforeIn S value keys x y = true ∨ beforeIn S value keys y z = true :=
    cotrans x x.2 y y.2 z z.2 less
  have irrefl (x : S) : beforeIn S value keys x x = false := before_of_equalKeys (fun k _ => .inl rfl)
  refine ⟨fun x y _ less leads => ?_, fun x y equal _ overtakes => ?_⟩
  · have follows : before value keys x y = false := StableSort.follows_of_leads cotrans' irrefl leads
    exact Bool.false_ne_true (follows.symm.trans less)
  · have less : before value keys y x = true := StableSort.less_of_overtakes cotrans' irrefl overtakes
    exact Bool.false_ne_true ((before_of_equalKeys equal.symm).symm.trans less)

/-- `ORDER BY x`. -/
def byX : List SortKey := [⟨.var (lit "x"), false⟩]

def inColumn (r : Row) (e : Expr) : Val := (r.get (columnKey e)).getD .null

theorem keyValues_byX (s : Store) (S : Set Row) : KeyValues .bare s S byX inColumn := by
  intro r _ k member c
  obtain rfl := mem_singleton.mp member
  have named : columnKey (.var (lit "x")) ≠ [] := by decide
  rw [sortValue, if_neg named, inColumn]
  cases bound : r.get (lit "x") with
  | none =>
    rw [columnKey, bound, eval, bound]
    rfl
  | some v =>
    rw [columnKey, bound]
    rfl

def integers : Set Row := Set.image rowX (Set.range Val.int)

theorem before_integers (a b : Int64) : before inColumn byX (rowX (.int a)) (rowX (.int b)) = decide (a < b) := by
  have compared : compareValues (inColumn (rowX (.int a)) (.var (lit "x"))) (inColumn (rowX (.int b)) (.var (lit "x")))
      = some (cmpInt64 a b) := rfl
  simp only [byX, before, compared, cmpInt64]
  by_cases less : a < b
  · simp [less]
  · by_cases more : b < a <;> simp [less, more]

theorem cotrans_integers
    : ∀ x ∈ integers, ∀ y ∈ integers, ∀ z ∈ integers, before inColumn byX x z = true
      → before inColumn byX x y = true ∨ before inColumn byX y z = true := by
  rintro _ ⟨_, ⟨a, rfl⟩, rfl⟩ _ ⟨_, ⟨b, rfl⟩, rfl⟩ _ ⟨_, ⟨c, rfl⟩, rfl⟩ less
  simp only [before_integers, decide_eq_true_eq, Int64.lt_iff_toInt_lt] at less ⊢
  omega

theorem sorted_numbers
    : ∃ out, (sortRows .bare byX [rowX (.int 2), rowX (.int 1)] .ordered).read .empty = .ok out
      ∧ Sorted inColumn byX [rowX (.int 2), rowX (.int 1)] out := by
  refine (sorted_iff_orderlyKeys (keyValues_byX .empty integers)).mpr
    (orderlyKeys_of_cotrans cotrans_integers) _ (fun r member => ?_) _
  rcases List.mem_pair.mp member with rfl | rfl
  · exact ⟨_, ⟨2, rfl⟩, rfl⟩
  · exact ⟨_, ⟨1, rfl⟩, rfl⟩

/-- A null between two numbers ties with both of them, and they are never compared. -/
theorem not_sorted_null
    : ¬ ∃ out, (sortRows .bare byX [rowX (.int 2), rowX .null, rowX (.int 1)] .ordered).read .empty = .ok out
      ∧ Sorted inColumn byX [rowX (.int 2), rowX .null, rowX (.int 1)] out := by
  rintro ⟨out, ran, sorted⟩
  have kept : (sortRows .bare byX [rowX (.int 2), rowX .null, rowX (.int 1)] .ordered).read .empty
      = .ok [rowX (.int 2), rowX .null, rowX (.int 1)] := rfl
  rw [kept] at ran
  cases ran
  have late := (List.pairwise_cons.mp sorted.ordered).1 (rowX (.int 1)) (by simp)
  have less : before inColumn byX (rowX (.int 1)) (rowX (.int 2)) = true := by decide
  refine Bool.false_ne_true ((late fun k member => ?_).symm.trans less)
  obtain rfl := List.mem_singleton.mp member
  decide

end Intreccio.Exec
