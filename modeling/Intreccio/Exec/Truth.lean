import Intreccio.Codec.RoundTrip
import Intreccio.Exec.Reading
import Intreccio.Foundation.FloatOrder
import Mathlib.Data.List.Forall2

/-! Three-valued logic in queries: the quantifiers over lists and the equality of values. -/

namespace Intreccio.Exec

open Kv Words Program Ast Graph Codec List OrderedMap

/-- Disjunction with an unknown value. -/
def or3 (a b : Option Bool) : Option Bool := (and3 (a.map not) (b.map not)).map not

theorem foldr_and3 (l : List (Option Bool))
    : l.foldr and3 (some true)
      = if some false ∈ l then some false else if none ∈ l then none else some true := by
  induction l with
  | nil => rfl
  | cons r rest ih =>
    rw [foldr_cons, ih]
    rcases r with _ | _ | _ <;> simp only [mem_cons] <;> split_ifs <;> simp_all [and3]

theorem foldr_or3 (l : List (Option Bool))
    : l.foldr or3 (some false)
      = if some true ∈ l then some true else if none ∈ l then none else some false := by
  induction l with
  | nil => rfl
  | cons r rest ih =>
    rw [foldr_cons, ih]
    rcases r with _ | _ | _ <;> simp only [mem_cons] <;> split_ifs <;> simp_all [or3, and3]

/-- The unknown ones among the results are replaced by true or false. -/
def Completes (l : List (Option Bool)) (bs : List Bool) : Prop :=
  List.Forall₂ (fun r b => r = none ∨ r = some b) l bs

theorem Completes.count_le {l : List (Option Bool)} {bs : List Bool} (completes : Completes l bs)
    : l.count (some true) ≤ bs.count true ∧ bs.count true ≤ l.count (some true) + l.count none := by
  induction completes with
  | nil => simp
  | @cons r b l bs here _ ih =>
    rcases here with rfl | rfl <;> cases b <;> simp <;> omega

/-- As many of the unknown ones as one likes can be true. -/
theorem exists_completes (l : List (Option Bool)) {k : Nat} (few : k ≤ l.count none)
    : ∃ bs, Completes l bs ∧ bs.count true = l.count (some true) + k := by
  induction l generalizing k with
  | nil =>
    rw [Nat.le_zero.mp few]
    exact ⟨[], .nil, rfl⟩
  | cons r rest ih =>
    rcases r with _ | b
    · cases k with
      | zero =>
        obtain ⟨bs, completes, count⟩ := ih (Nat.zero_le _)
        exact ⟨false :: bs, .cons (.inl rfl) completes, by simpa using count⟩
      | succ k =>
        obtain ⟨bs, completes, count⟩ := ih (k := k) (by simpa using few)
        exact ⟨true :: bs, .cons (.inl rfl) completes, by simp [count]; omega⟩
    · obtain ⟨bs, completes, count⟩ := ih (k := k) (by simpa using few)
      refine ⟨b :: bs, .cons (.inr rfl) completes, ?_⟩
      cases b <;> simp [count]
      omega

theorem forall_completes {l : List (Option Bool)} {P : Nat → Prop}
    : (∀ bs, Completes l bs → P (bs.count true)) ↔ ∀ k ≤ l.count none, P (l.count (some true) + k) := by
  constructor
  · intro all k few
    obtain ⟨bs, completes, count⟩ := exists_completes l few
    exact count ▸ all bs completes
  · intro all bs completes
    obtain ⟨low, high⟩ := completes.count_le
    have := all (bs.count true - l.count (some true)) (by omega)
    rwa [Nat.add_sub_cancel' low] at this

/-- What a quantifier is to answer for the results of its predicate. -/
def Quantified (l : List (Option Bool)) (answer : Option Bool) : QuantifierKind → Prop
  | .any => answer = l.foldr or3 (some false)
  | .all => answer = l.foldr and3 (some true)
  | .none => answer = (l.foldr or3 (some false)).map not
  | .single => (answer = some true ↔ ∀ bs, Completes l bs → bs.count true = 1)
      ∧ (answer = some false ↔ ∀ bs, Completes l bs → bs.count true ≠ 1)

/-- The truth of a predicate value; what is neither null nor true counts as false. -/
def truth (v : Val) : Option Bool := if isNull v then none else some (truthy v)

/-- The results of a predicate for all elements of a list. -/
def results (test : Val → Choices → Txn Val) : List Val → Choices → Txn (List Val)
  | [], _ => return []
  | v :: rest, c => do
      let r ← test v c.now
      let more ← results test rest c.later
      return r :: more

theorem Tally.decided_count {t : Tally} {kind : QuantifierKind} (decided : t.decided kind = true) (v : Val)
    : (t.count v).decided kind = true ∧ (t.count v).answer kind = t.answer kind := by
  unfold Tally.count
  cases kind <;> simp only [Tally.decided, Tally.answer, decide_eq_true_eq] at * <;> split_ifs <;> simp_all

theorem Tally.answer_foldl {t : Tally} {kind : QuantifierKind} (decided : t.decided kind = true) (vs : List Val)
    : (vs.foldl Tally.count t).answer kind = t.answer kind := by
  induction vs generalizing t with
  | nil => rfl
  | cons v rest ih =>
    obtain ⟨still, same⟩ := Tally.decided_count decided v
    exact (ih still).trans same

theorem foldl_count (t : Tally) (vs : List Val)
    : vs.foldl Tally.count t = ⟨t.trues + (vs.map truth).count (some true),
        t.falses + (vs.map truth).count (some false), t.unknowns + (vs.map truth).count none⟩ := by
  induction vs generalizing t with
  | nil => rfl
  | cons v rest ih =>
    rw [foldl_cons, ih, map_cons]
    unfold Tally.count truth
    split_ifs <;> simp_all <;> omega

theorem reads_results {test : Val → Choices → Txn Val} (reads : ∀ v c, (test v c).Reads) (items : List Val)
    (c : Choices) : (results test items c).Reads := by
  induction items generalizing c with
  | nil => exact reads_ret _
  | cons v rest ih => exact .bind (reads v _) (fun _ => .bind (ih _) (fun _ => reads_ret _))

theorem tally_results {test : Val → Choices → Txn Val} (reads : ∀ v c, (test v c).Reads) {s : Store}
    {items rs : List Val} {c : Choices} (done : (results test items c).read s = .ok rs) (kind : QuantifierKind)
    (t : Tally)
    : ∃ t', (tally kind test items t c).read s = .ok t'
      ∧ t'.answer kind = (rs.foldl Tally.count t).answer kind := by
  induction items generalizing rs t c with
  | nil =>
    cases done
    exact ⟨t, rfl, rfl⟩
  | cons v rest ih =>
    obtain ⟨r, here, done⟩ := (read_bind_ok (reads v _)).mp done
    obtain ⟨more, there, done⟩ := (read_bind_ok (reads_results reads rest _)).mp done
    cases done
    rw [tally, bind_eq, read_bind_of_ok (reads v _) here]
    dsimp only
    by_cases decided : (t.count r).decided kind = true
    · rw [if_pos decided]
      exact ⟨_, rfl, (Tally.answer_foldl decided more).symm⟩
    · rw [if_neg decided]
      exact ih there (t.count r)

/-- The counters decide as the results of all elements do. -/
theorem answer_quantified (kind : QuantifierKind) (vs : List Val)
    : ∃ answer, (vs.foldl Tally.count ⟨0, 0, 0⟩).answer kind = ofTruth answer
      ∧ Quantified (vs.map truth) answer kind := by
  rw [foldl_count]
  generalize vs.map truth = l
  simp only [Nat.zero_add]
  cases kind with
  | any | none =>
    refine ⟨_, ?_, rfl⟩
    rw [foldr_or3]
    simp only [Tally.answer, count_pos_iff]
    split_ifs <;> rfl
  | all =>
    refine ⟨_, ?_, rfl⟩
    rw [foldr_and3]
    simp only [Tally.answer, count_pos_iff]
    split_ifs <;> rfl
  | single =>
    simp only [Quantified, forall_completes (P := (· = 1)), forall_completes (P := (· ≠ 1)), Tally.answer]
    generalize l.count (some true) = trues
    generalize l.count none = unknowns
    split_ifs with several known
    · refine ⟨some false, rfl, ⟨by simp, fun h => ?_⟩, ⟨fun _ k _ => by omega, fun _ => rfl⟩⟩
      have := h 0 (Nat.zero_le _)
      omega
    · refine ⟨some (trues = 1), rfl, ?_⟩
      simp [known]
    · refine ⟨none, rfl, ⟨by simp, fun h => ?_⟩, ⟨by simp, fun h => ?_⟩⟩
      · have := h 0 (Nat.zero_le _)
        have := h 1 (by omega)
        omega
      · have := h 0 (Nat.zero_le _)
        have := h 1 (by omega)
        omega

/-- The quantifiers answer as three-valued logic says for the results of all elements, although
they stop early; a null list gives null.
-/
theorem quantifiers_three_valued (ctx : Context) (kind : QuantifierKind) (loopVar : Str) (list cond : Expr)
    (b : Row) (c : Choices) (s : Store)
    : (∀ items rs, (eval ctx list b (c.sub 0)).read s = .ok (.list items)
        → (results (fun item c => eval ctx cond (b.set loopVar item) c) items (c.sub 1)).read s = .ok rs
        → ∃ answer, (eval ctx (.quantifier kind loopVar list cond) b c).read s = .ok (ofTruth answer)
          ∧ Quantified (rs.map truth) answer kind)
      ∧ ((eval ctx list b (c.sub 0)).read s = .ok .null
        → (eval ctx (.quantifier kind loopVar list cond) b c).read s = .ok .null) := by
  constructor
  · intro items rs listed tested
    have reads (v : Val) (c : Choices) := reads_eval ctx cond (b.set loopVar v) c
    obtain ⟨t, counted, same⟩ := tally_results reads tested kind ⟨0, 0, 0⟩
    obtain ⟨answer, decided, quantified⟩ := answer_quantified kind rs
    refine ⟨answer, ?_, quantified⟩
    rw [eval, bind_eq, read_bind_of_ok (reads_eval ctx list b _) listed]
    refine (read_bind_of_ok (reads_tally reads _ _ _ _) counted).trans ?_
    rw [← decided, ← same]
    rfl
  · intro null
    rw [eval, bind_eq, read_bind_of_ok (reads_eval ctx list b _) null]
    rfl

/-- The kinds of values; integers and floats are numbers. -/
inductive Kind where
  | null | boolean | number | string | list | map | node | relationship | path | other
deriving DecidableEq

def kindOf : Val → Kind
  | .null => .null
  | .bool _ => .boolean
  | .int _ | .goInt _ | .float _ => .number
  | .str _ => .string
  | .list _ => .list
  | .map _ => .map
  | .node _ => .node
  | .edge _ => .relationship
  | .path _ _ => .path
  | .edges _ | .other _ => .other

/-- What two values say by themselves: unknown next to a null, false when their kinds, lengths, keys or
leaves differ. The keys of a map are in order, so two maps with the same keys have one list of them.
-/
def verdict (a b : Val) : Option Bool :=
  if kindOf a = .null ∨ kindOf b = .null then none
  else if kindOf a ≠ kindOf b then some false
  else
    match a, b with
    | .list xs, .list ys => some (xs.length = ys.length)
    | .map xs, .map ys => some (xs.map Prod.fst = ys.map Prod.fst)
    | .node n, .node m => some (n.id = m.id)
    | .edge e, .edge f => some (e.id = f.id)
    | .path nodes rels, .path nodes' rels' => some (pathIDs nodes rels = pathIDs nodes' rels')
    | a, b => some (queryEqual a b)

mutual
/-- The pairs of values that correspond to each other: the values themselves, and those at one index of
two lists or at one key of two maps, at any depth.
-/
def pairs : Val → Val → List (Val × Val)
  | .list xs, .list ys => (.list xs, .list ys) :: pairsItems xs ys
  | .map xs, .map ys => (.map xs, .map ys) :: pairsEntries xs ys
  | a, b => [(a, b)]

def pairsItems : List Val → List Val → List (Val × Val)
  | x :: xs, y :: ys => pairs x y ++ pairsItems xs ys
  | _, _ => []

def pairsEntries : List (Str × Val) → List (Str × Val) → List (Val × Val)
  | (k, x) :: xs, (l, y) :: ys => (if k = l then pairs x y else []) ++ pairsEntries xs ys
  | _, _ => []
end

/-- The conjunction of what the pairs say. -/
def conj (l : List (Val × Val)) : Option Bool := (l.map fun p => verdict p.1 p.2).foldr and3 (some true)

theorem conj_single (a b : Val) : conj [(a, b)] = verdict a b := by
  change and3 (verdict a b) (some true) = _
  rcases verdict a b with _ | _ | _ <;> rfl

theorem conj_append (l m : List (Val × Val)) : conj (l ++ m) = and3 (conj l) (conj m) := by
  have assoc (r t u : Option Bool) : and3 r (and3 t u) = and3 (and3 r t) u := by
    rcases r with _ | _ | _ <;> rcases t with _ | _ | _ <;> rcases u with _ | _ | _ <;> rfl
  induction l with
  | nil => rfl
  | cons p rest ih => exact (congrArg (and3 _) ih).trans (assoc _ _ _)

/-- The comparison of an entry with the entries of the other map. -/
def equalityAt (ys : List (Str × Val)) (e : Str × Val) : Option Bool :=
  (OrderedMap.find e.1 ys).elim (some false) (equality e.2)

theorem equalityEntries_eq (xs ys : List (Str × Val))
    : equalityEntries xs ys = (xs.map (equalityAt ys)).foldr and3 (some true) := by
  induction xs with
  | nil => rfl
  | cons e rest ih =>
    rw [equalityEntries, ih, map_cons, foldr_cons, equalityAt]
    cases OrderedMap.find e.1 ys <;> rfl

/-- As many entries with other keys: one key is missing in the other map. -/
theorem equalityEntries_eq_false {xs ys : List (Str × Val)} (left : xs.Pairwise (fun a b => a.1 < b.1))
    (right : ys.Pairwise (fun a b => a.1 < b.1)) (length : xs.length = ys.length)
    (differ : xs.map Prod.fst ≠ ys.map Prod.fst)
    : equalityEntries xs ys = some false := by
  rw [equalityEntries_eq, foldr_and3, if_pos]
  by_contra all
  have contained : xs.map Prod.fst ⊆ ys.map Prod.fst := by
    intro k held
    obtain ⟨e, here, rfl⟩ := mem_map.mp held
    by_contra absent
    have missing : OrderedMap.find e.1 ys = none :=
      find_eq_none fun e' other same => absent (mem_map.mpr ⟨e', other, same⟩)
    exact all (mem_map.mpr ⟨e, here, by rw [equalityAt, missing]; rfl⟩)
  have perm := (subperm_of_subset (keys_nodup left) contained).perm_of_length_le (by simp [length])
  exact differ (perm.eq_of_pairwise (fun _ _ _ _ less more => absurd less more.asymm)
    (pairwise_map.mpr left) (pairwise_map.mpr right))

mutual
theorem equality_eq_conj (a b : Val) (left : representable a = true) (right : representable b = true)
    : equality a b = conj (pairs a b) := by
  cases a with
  | list xs =>
    cases b with
    | list ys =>
      simp only [representable, Bool.and_eq_true] at left right
      rw [equality, equalityItems_eq_conj xs ys left.2 right.2]
      by_cases length : xs.length = ys.length <;> simp [pairs, conj, verdict, kindOf, and3, length]
    | _ => rfl
  | map xs =>
    cases b with
    | map ys =>
      simp only [representable, Bool.and_eq_true, decide_eq_true_eq] at left right
      by_cases keys : xs.map Prod.fst = ys.map Prod.fst
      · have length : xs.length = ys.length := by simpa using congrArg List.length keys
        have found (e : Str × Val) (here : e ∈ ys) := (find_eq_some_iff (keys_nodup right.1.2)).mpr here
        rw [equality, equalityEntries_eq_conj xs ys ys left.2 right.2 keys found]
        simp [pairs, conj, verdict, kindOf, and3, keys, length]
      · have differ (length : xs.length = ys.length) := equalityEntries_eq_false left.1.2 right.1.2 length keys
        simp +contextual [pairs, conj, verdict, kindOf, and3, keys, equality, differ]
    | _ => rfl
  | _ =>
    refine Eq.trans ?_ (conj_single _ b).symm
    cases b <;> rfl
termination_by structural a

theorem equalityItems_eq_conj (xs ys : List Val) (left : representableItems xs = true)
    (right : representableItems ys = true)
    : equalityItems xs ys = conj (pairsItems xs ys) := by
  cases xs with
  | nil => rfl
  | cons x rest =>
    cases ys with
    | nil => rfl
    | cons y more =>
      simp only [representableItems, Bool.and_eq_true] at left right
      rw [equalityItems, pairsItems, conj_append, equality_eq_conj x y left.1 right.1,
        equalityItems_eq_conj rest more left.2 right.2]
termination_by structural xs

theorem equalityEntries_eq_conj (xs zs ys : List (Str × Val)) (left : representableEntries xs = true)
    (right : representableEntries zs = true) (keys : xs.map Prod.fst = zs.map Prod.fst)
    (found : ∀ e ∈ zs, OrderedMap.find e.1 ys = some e.2)
    : equalityEntries xs ys = conj (pairsEntries xs zs) := by
  cases xs with
  | nil => rfl
  | cons e rest =>
    cases zs with
    | nil => cases keys
    | cons f more =>
      obtain ⟨k, x⟩ := e
      simp only [representableEntries, Bool.and_eq_true] at left right
      obtain ⟨rfl, others⟩ := List.cons.inj keys
      rw [equalityEntries, pairsEntries, if_pos rfl, conj_append, found f mem_cons_self,
        equalityEntries_eq_conj rest more ys left.2 right.2 others fun e later => found e (.tail _ later)]
      exact congrArg (and3 · _) (equality_eq_conj x f.2 left.1.2 right.1.2)
termination_by structural xs
end

mutual
theorem pairs_swap (a b : Val) : pairs b a = (pairs a b).map Prod.swap := by
  cases a with
  | list xs =>
    cases b with
    | list ys => rw [pairs, pairs, map_cons, pairsItems_swap xs ys, Prod.swap_prod_mk]
    | _ => rfl
  | map xs =>
    cases b with
    | map ys => rw [pairs, pairs, map_cons, pairsEntries_swap xs ys, Prod.swap_prod_mk]
    | _ => rfl
  | _ => cases b <;> rfl
termination_by structural a

theorem pairsItems_swap (xs ys : List Val) : pairsItems ys xs = (pairsItems xs ys).map Prod.swap := by
  cases xs with
  | nil => cases ys <;> rfl
  | cons x rest =>
    cases ys with
    | nil => rfl
    | cons y more => rw [pairsItems, pairsItems, map_append, pairs_swap x y, pairsItems_swap rest more]
termination_by structural xs

theorem pairsEntries_swap (xs ys : List (Str × Val))
    : pairsEntries ys xs = (pairsEntries xs ys).map Prod.swap := by
  cases xs with
  | nil => cases ys <;> rfl
  | cons e rest =>
    cases ys with
    | nil => rfl
    | cons f more =>
      obtain ⟨k, x⟩ := e
      rw [pairsEntries, pairsEntries, map_append, pairsEntries_swap rest more]
      by_cases same : k = f.1
      · rw [if_pos same, if_pos same.symm, pairs_swap x f.2]
      · rw [if_neg same, if_neg (Ne.symm same), map_nil]
termination_by structural xs
end

mutual
theorem equality_visited (o : MapOrder) (a b : Val) : equality (visited o a) b = equality a b := by
  cases a with
  | list items =>
    obtain ⟨length, same⟩ := equalityItems_visited o 0 items
    cases b <;> simp only [visited, equality, length, same]
  | map entries =>
    obtain ⟨length, same⟩ := equalityEntries_visited (o.sub 1) 0 entries
    have perm := (o.sub 0).range_perm (visitedEntries (o.sub 1) 0 entries)
    have reordered (ys : List (Str × Val))
        : equalityEntries ((o.sub 0).range (visitedEntries (o.sub 1) 0 entries)) ys
          = equalityEntries entries ys := by
      rw [← same, equalityEntries_eq, equalityEntries_eq, foldr_and3, foldr_and3]
      simp only [(perm.map _).mem_iff]
    cases b <;> simp only [visited, equality, perm.length_eq, length, reordered]
  | _ => rfl

theorem equalityItems_visited (o : MapOrder) (i : Nat) (xs : List Val)
    : (visitedItems o i xs).length = xs.length
      ∧ ∀ ys, equalityItems (visitedItems o i xs) ys = equalityItems xs ys := by
  cases xs with
  | nil => exact ⟨rfl, fun _ => rfl⟩
  | cons v rest =>
    obtain ⟨length, same⟩ := equalityItems_visited o (i + 1) rest
    refine ⟨congrArg (· + 1) length, fun ys => ?_⟩
    cases ys <;> simp only [visitedItems, equalityItems, equality_visited (o.sub i) v, same]

theorem equalityEntries_visited (o : MapOrder) (i : Nat) (xs : List (Str × Val))
    : (visitedEntries o i xs).length = xs.length
      ∧ ∀ ys, equalityEntries (visitedEntries o i xs) ys = equalityEntries xs ys := by
  cases xs with
  | nil => exact ⟨rfl, fun _ => rfl⟩
  | cons e rest =>
    obtain ⟨length, same⟩ := equalityEntries_visited o (i + 1) rest
    refine ⟨congrArg (· + 1) length, fun ys => ?_⟩
    simp only [visitedEntries, equalityEntries, equality_visited (o.sub i) e.2, same]
end

theorem verdict_comm (a b : Val) : verdict a b = verdict b a := by
  cases a <;> cases b <;> simp [verdict, kindOf, queryEqual, Graph.normalize, eq_comm, Binary64.eq_comm]

/-- Equality is a symmetric three-valued comparison that does not depend on the order of its loops
over maps, and IN is the disjunction of the comparisons with the elements.
-/
theorem equality_three_valued (a b : Val) (left : representable a = true) (right : representable b = true)
    : equality a b = equality b a ∧ (∀ o, equality (visited o a) b = equality a b)
      ∧ equality a b
        = (if ∃ p ∈ pairs a b, verdict p.1 p.2 = some false then some false
          else if ∃ p ∈ pairs a b, verdict p.1 p.2 = none then none
          else some true)
      ∧ ∀ items, inList a (.list items) = .ok (ofTruth ((items.map (equality a)).foldr or3 (some false))) := by
  refine ⟨?_, fun o => equality_visited o a b, ?_, fun items => ?_⟩
  · rw [equality_eq_conj a b left right, equality_eq_conj b a right left, conj, conj, pairs_swap a b,
      List.map_map]
    exact congrArg (List.foldr and3 (some true) <| (pairs a b).map ·) (funext fun p => verdict_comm p.1 p.2)
  · rw [equality_eq_conj a b left right, conj, foldr_and3]
    simp only [List.mem_map]
  · rw [foldr_or3, inList]
    split_ifs <;> rfl

/-- Witness: next to a null the answer is unknown from either side. -/
theorem equality_three_valued_null
    : equality (.list [.null]) (.list [.int 1]) = equality (.list [.int 1]) (.list [.null]) :=
  (equality_three_valued _ _ (by decide) (by decide)).1

end Intreccio.Exec
