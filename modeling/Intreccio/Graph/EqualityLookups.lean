import Intreccio.Graph.IndexKeys
import Intreccio.Graph.ValueEquality

/-! Equality lookups (`internal/graph/traversal.go`, `relindex.go`): through an index or by a scan,
they list the owners of equal values in ID order.
-/

namespace Intreccio.Graph

open Kv Kv.Program Words Codec Binary64 List

variable {f : Binary64} {i : Int64}

/-- A float that the guard of the lookups lets pass. -/
theorem below53_of_not_le (number : f.isNaN = false) (small : ¬ (ofInt maxExactInt).le f.abs = true)
    : f.Below53 := by
  have bound : (ofInt maxExactInt).scaled = maxExactInt * unit := exact_small (by decide)
  have finite : (ofInt maxExactInt).Finite := finite_ofInt (by simp [InRange, maxExactInt])
  rw [le_iff finite.not_nan (by rw [isNaN_abs, number]), bound, scaled_abs] at small
  unfold Below53
  simp only [maxExactInt] at small
  omega

theorem floatOf_eq_iff (number : f.isNaN = false) (small : f.Below53)
    : (floatOf i).eq f = true ↔ i.toInt * unit = f.scaled := by
  rw [eq_iff (floatOf_not_nan i) number]
  exact ofInt_eq small (inRange_toInt i)

theorem floatOf_eq_zero_iff (zero : f.isZero = true) : (floatOf i).eq f = true ↔ i = 0 := by
  rw [floatOf_eq_iff (isNaN_of_isZero zero) (below53_of_isZero zero), scaled_of_isZero zero,
    Int.mul_eq_zero, show (0 : Int) = (0 : Int64).toInt from rfl, Int64.toInt_inj]
  exact or_iff_left (Int.natCast_ne_zero.mpr unit_pos.ne')

theorem floatOf_isZero : (floatOf i).isZero = true ↔ i = 0 := by
  constructor
  · intro zero
    exact (floatOf_eq_zero_iff zero).mp ((eq_iff (floatOf_not_nan i) (floatOf_not_nan i)).mpr rfl)
  · rintro rfl
    decide

/-- An integral float below the bound is converted to the integer of its value. -/
theorem toInt_toInt64 (number : f.isNaN = false) (bounded : f.isInf = false) (small : f.Below53)
    (whole : f.isInteger = true)
    : f.toInt64.toInt = f.truncate := by
  have size : f.truncate.natAbs < 2 ^ 53 := by
    unfold Below53 at small
    rw [scaled_of_isInteger whole, Int.natAbs_mul, Int.natAbs_natCast] at small
    exact Nat.lt_of_mul_lt_mul_right small
  rw [toInt64, if_neg (by simp [number, bounded]; omega)]
  exact Int64.toInt_ofInt_of_le (by omega) (by omega)

/-- The values that a lookup probes are scalars, each listed once: exactly those that equal the
value looked up.
-/
structure ProbesFor (d : Scalar) (ps : List Scalar) : Prop where
  distinct : ps.Nodup
  exact : ∀ c : Scalar, queryEqual c.toVal d.toVal = true ↔ c ∈ ps

def zeros : List Scalar := [.int 0, .float (.zero false), .float (.zero true)]

theorem zeros_nodup : zeros.Nodup := by decide

theorem probesFor_int_zero : ProbesFor (.int 0) zeros := by
  refine ⟨zeros_nodup, fun c => ?_⟩
  cases c with
  | float g => simpa [queryEqual, normalize, Scalar.toVal, zeros] using eq_iff_of_zero (floatOf_isZero.mpr rfl)
  | _ => simp [queryEqual, normalize, Scalar.toVal, zeros]

theorem probesFor_float_zero (zero : f.isZero = true) : ProbesFor (.float f) zeros := by
  refine ⟨zeros_nodup, fun c => ?_⟩
  cases c with
  | int y => simpa [queryEqual, normalize, Scalar.toVal, zeros] using floatOf_eq_zero_iff zero
  | float g => simpa [queryEqual, normalize, Scalar.toVal, zeros] using eq_iff_of_zero zero
  | _ => simp [queryEqual, normalize, Scalar.toVal, zeros]

theorem probesFor_int {x : Int64} (nonzero : x ≠ 0)
    : ProbesFor (.int x) [.int x, .float (floatOf x)] := by
  have other : (floatOf x).isZero = false := by
    rw [← Bool.not_eq_true, floatOf_isZero]
    exact nonzero
  refine ⟨by simp, fun c => ?_⟩
  cases c with
  | float g =>
    simpa [queryEqual, normalize, Scalar.toVal] using eq_iff_of_nonzero (floatOf_not_nan x) other
  | _ => simp [queryEqual, normalize, Scalar.toVal]

/-- Next to a float, only the integer of its value matters. -/
theorem probesFor_float {x : Binary64} (ints : List Int64) (number : x.isNaN = false)
    (nonzero : x.isZero = false) (distinct : ints.Nodup)
    (exact : ∀ y : Int64, (floatOf y).eq x = true ↔ y ∈ ints)
    : ProbesFor (.float x) (.float x :: ints.map .int) := by
  refine ⟨?_, fun c => ?_⟩
  · simp only [nodup_cons, mem_map, reduceCtorEq, and_false, exists_false, not_false_eq_true,
      true_and]
    exact distinct.map (fun a b => Scalar.int.inj)
  · cases c with
    | int y => simpa [queryEqual, normalize, Scalar.toVal] using exact y
    | float g => simpa [queryEqual, normalize, Scalar.toVal] using eq_iff_of_nonzero number nonzero
    | _ => simp [queryEqual, normalize, Scalar.toVal]

variable {d : Scalar}

theorem probes_exact {probes : List Val} (present : d ≠ .null)
    (listed : equalityProbes d.toVal = some probes)
    : ∃ ps : List Scalar, probes = ps.map Scalar.toVal ∧ ProbesFor d ps := by
  cases d with
  | null => exact absurd rfl present
  | bool b =>
    refine ⟨[.bool b], (Option.some.inj listed).symm, by simp, fun c => ?_⟩
    cases c <;> simp [queryEqual, normalize, Scalar.toVal]
  | str t =>
    refine ⟨[.str t], (Option.some.inj listed).symm, by simp, fun c => ?_⟩
    cases c <;> simp [queryEqual, normalize, Scalar.toVal]
  | int x =>
    simp only [Scalar.toVal, equalityProbes] at listed
    split at listed
    case isTrue zero =>
      obtain rfl := floatOf_isZero.mp zero
      refine ⟨zeros, ?_, probesFor_int_zero⟩
      rw [← Option.some.inj listed]
      rfl
    case isFalse nonzero =>
      exact ⟨[.int x, .float (floatOf x)], (Option.some.inj listed).symm,
        probesFor_int (fun zero => nonzero (floatOf_isZero.mpr zero))⟩
  | float x =>
    simp only [Scalar.toVal, equalityProbes] at listed
    split at listed
    case isTrue nan =>
      refine ⟨[], (Option.some.inj listed).symm, by simp, fun c => ?_⟩
      cases c <;> simp [queryEqual, normalize, Scalar.toVal, Binary64.eq, nan]
    case isFalse number =>
    split at listed
    case isTrue zero =>
      refine ⟨zeros, ?_, probesFor_float_zero zero⟩
      rw [← Option.some.inj listed]
      rfl
    case isFalse nonzero =>
    rw [Bool.not_eq_true] at number nonzero
    split at listed
    case isTrue infinite =>
      refine ⟨[.float x], (Option.some.inj listed).symm,
        probesFor_float [] number nonzero (by simp) (fun y => iff_of_false ?_ (by simp))⟩
      rw [eq_iff (floatOf_not_nan y) number]
      intro same
      simp [(finite_of_scaled (finite_floatOf y) same.symm).not_inf] at infinite
    case isFalse bounded =>
    rw [Bool.not_eq_true] at bounded
    split at listed
    case isTrue large => cases listed
    case isFalse small =>
    have close := below53_of_not_le number small
    split at listed
    case isTrue whole =>
      refine ⟨[.float x, .int x.toInt64], (Option.some.inj listed).symm,
        probesFor_float [x.toInt64] number nonzero (by simp) (fun y => ?_)⟩
      rw [floatOf_eq_iff number close, scaled_of_isInteger whole, mem_singleton,
        ← toInt_toInt64 number bounded close whole, ← Int64.toInt_inj]
      exact Int.mul_eq_mul_right_iff (Int.natCast_ne_zero.mpr unit_pos.ne')
    case isFalse fraction =>
      refine ⟨[.float x], (Option.some.inj listed).symm,
        probesFor_float [] number nonzero (by simp) (fun y => iff_of_false ?_ (by simp))⟩
      rw [floatOf_eq_iff number close]
      intro value
      exact fraction (isInteger_of_scaled (finite_of number bounded) value.symm).1

variable {s : Store} {n : UInt64}

theorem stored_bytes (tag : UInt8) {κ : Key} (table : κ.tag = tag)
    : Stored s tag κ.bytes ↔ cell s κ ≠ none := by
  subst table
  exact and_iff_left rfl

theorem IndexConsistent.label_iff (consistent : IndexConsistent s) {l : UInt32}
    : cell s (.label l n) ≠ none ↔ ∃ r, nodeAt s n = some r ∧ l ∈ r.labels := by
  rw [← stored_bytes KeyLabel rfl, consistent.labels]
  constructor
  · rintro ⟨m, r, l', found, member, same⟩
    rw [Key.labelKey_eq, Key.bytes_inj, Key.label.injEq] at same
    obtain ⟨rfl, rfl⟩ := same
    exact ⟨r, found, member⟩
  · rintro ⟨r, found, member⟩
    exact ⟨n, r, l, found, member, Key.labelKey_eq l n⟩

theorem IndexConsistent.prop_iff (consistent : IndexConsistent s) {l k : UInt32} {c : Scalar}
    : cell s (.prop l k c n) ≠ none ↔ Indexed s l k ∧ Carries s n l k c := by
  rw [← stored_bytes KeyProp rfl, consistent.props]
  constructor
  · rintro ⟨l', k', m, r, v, indexed, found, member, held, indexable, made⟩
    obtain ⟨d, rfl⟩ := isIndexable_iff.mp indexable
    rw [Key.propKey_eq, Except.ok.injEq, Key.bytes_inj, Key.prop.injEq] at made
    obtain ⟨rfl, rfl, rfl, rfl⟩ := made
    exact ⟨indexed, r, found, member, held⟩
  · rintro ⟨indexed, r, found, member, held⟩
    exact ⟨l, k, n, r, c.toVal, indexed, found, member, held, isIndexable_iff.mpr ⟨c, rfl⟩,
      Key.propKey_eq l k c n⟩

theorem IndexConsistent.relProp_iff (consistent : IndexConsistent s) {t k : UInt32} {c : Scalar}
    {e : UInt64}
    : cell s (.relProp t k c e) ≠ none
      ↔ RelIndexed s t k
        ∧ ∃ r, edgeAt s e = some r ∧ r.type = t ∧ r.props.get k = some c.toVal := by
  rw [← stored_bytes KeyRelProp rfl, consistent.rels]
  constructor
  · rintro ⟨t', k', m, r, v, indexed, found, type, held, indexable, made⟩
    obtain ⟨d, rfl⟩ := isIndexable_iff.mp indexable
    rw [Key.relPropKey_eq, Except.ok.injEq, Key.bytes_inj, Key.relProp.injEq] at made
    obtain ⟨rfl, rfl, rfl, rfl⟩ := made
    exact ⟨indexed, r, found, type, held⟩
  · rintro ⟨indexed, r, found, type, held⟩
    exact ⟨t, k, e, r, c.toVal, indexed, found, type, held, isIndexable_iff.mpr ⟨c, rfl⟩,
      Key.relPropKey_eq t k c e⟩

/-- The node has the label and, at the key, the value. -/
def NodeHolds (s : Store) (l k : UInt32) (n : UInt64) (v : Val) : Prop :=
  ∃ r, nodeAt s n = some r ∧ l ∈ r.labels ∧ r.props.get k = some v

/-- The relationship has the type and, at the key, the value. -/
def EdgeHolds (s : Store) (t k : UInt32) (e : UInt64) (v : Val) : Prop :=
  ∃ r, edgeAt s e = some r ∧ r.type = t ∧ r.props.get k = some v

/-- The IDs in increasing order, each once: exactly those that satisfy the predicate. -/
structure Lists (ids : List UInt64) (P : UInt64 → Prop) : Prop where
  increasing : ids.Pairwise (· < ·)
  members : ∀ n, n ∈ ids ↔ P n

/-- What is listed in increasing order is determined by its members. -/
theorem Lists.unique {a b : List UInt64} {P : UInt64 → Prop} (left : Lists a P) (right : Lists b P)
    : a = b := by
  have once {ids : List UInt64} (increasing : ids.Pairwise (· < ·)) : ids.Nodup :=
    increasing.imp ne_of_lt
  refine List.Perm.eq_of_pairwise' (left.increasing.imp le_of_lt) (right.increasing.imp le_of_lt) ?_
  rw [perm_ext_iff_of_nodup (once left.increasing) (once right.increasing)]
  intro n
  rw [left.members, right.members]

theorem lists_sortIDs {ids : List UInt64} {P : UInt64 → Prop} (once : ids.Nodup)
    (members : ∀ n, n ∈ ids ↔ P n)
    : Lists (sortIDs ids) P := by
  refine ⟨?_, fun n => by rw [sortIDs, mem_insertionSort, members]⟩
  have sorted : (sortIDs ids).Pairwise (· ≤ ·) := pairwise_insertionSort (· ≤ ·) ids
  have distinct : (sortIDs ids).Nodup := (perm_insertionSort (· ≤ ·) ids).nodup_iff.mpr once
  exact sorted.imp₂ (fun a b below differ => lt_of_le_of_ne below differ) distinct

/-- A decoded value that equals a scalar is one. -/
theorem scalar_of_queryEqual {v : Val} (native : ∀ i, v ≠ .goInt i)
    (equal : queryEqual v d.toVal = true)
    : ∃ c : Scalar, v = c.toVal := by
  cases v with
  | goInt i => exact absurd rfl (native i)
  | bool b => exact ⟨.bool b, rfl⟩
  | int i => exact ⟨.int i, rfl⟩
  | float f => exact ⟨.float f, rfl⟩
  | str t => exact ⟨.str t, rfl⟩
  | _ => cases d <;> simp [queryEqual, normalize, Scalar.toVal] at equal

/-- What owners hold is one value each, as a record gives it back. -/
structure Recorded (holds : UInt64 → Val → Prop) : Prop where
  single : ∀ n v w, holds n v → holds n w → v = w
  native : ∀ n v i, holds n v → v ≠ .goInt i

theorem recorded_nodes (l k : UInt32) : Recorded (NodeHolds s l k) := by
  refine ⟨?_, ?_⟩
  · rintro n v w ⟨r, found, _, held⟩ ⟨r', found', _, held'⟩
    obtain rfl := Option.some.inj (found.symm.trans found')
    exact Option.some.inj (held.symm.trans held')
  · rintro n v i ⟨r, found, _, held⟩
    obtain ⟨b, _, decoded⟩ := decoded_iff.mp found
    exact decodeNode_ne_goInt decoded held i

theorem recorded_edges (t k : UInt32) : Recorded (EdgeHolds s t k) := by
  refine ⟨?_, ?_⟩
  · rintro e v w ⟨r, found, _, held⟩ ⟨r', found', _, held'⟩
    obtain rfl := Option.some.inj (found.symm.trans found')
    exact Option.some.inj (held.symm.trans held')
  · rintro e v i ⟨r, found, _, held⟩
    obtain ⟨b, _, decoded⟩ := decoded_iff.mp found
    exact decodeEdge_ne_goInt decoded held i

section Probing

variable {stem : Val → Except Err Bytes} {stemOf : Scalar → Bytes} {key : Scalar → UInt64 → Key}
  (parse : Bytes → Except Err UInt64) (keyed : WellKeyed s)
  (stems : ∀ c : Scalar, stem c.toVal = .ok (stemOf c))
  (covers : ∀ (c : Scalar) (κ : Key), under (stemOf c) κ.bytes = true ↔ ∃ n, κ = key c n)
  (inj : ∀ c, Function.Injective (key c)) (read : ∀ c n, parse (key c n).bytes = .ok n)

include keyed stems covers inj read

/-- Probing the keys of a family lists the owners of the probed values.
Witness: each probe lists the owners of one value, and an owner has one value only.
-/
theorem run_probeMatches
    (single : ∀ c d n, cell s (key c n) ≠ none → cell s (key d n) ≠ none → c = d)
    {ps : List Scalar} (distinct : ps.Nodup)
    : ∃ ids, (probeMatches stem parse (ps.map Scalar.toVal)).run s = (.ok ids, s) ∧ ids.Nodup
      ∧ ∀ n, n ∈ ids ↔ ∃ c ∈ ps, cell s (key c n) ≠ none := by
  induction ps with
  | nil => exact ⟨[], rfl, by simp, by simp⟩
  | cons p rest ih =>
    obtain ⟨fresh, others⟩ := nodup_cons.mp distinct
    obtain ⟨more, ran, once, members⟩ := ih others
    obtain ⟨ids, parsed, sorted, held⟩ := parseKeys_select parse (key p) id keyed (inj p) (covers p)
      (read p)
    rw [map_id] at parsed
    refine ⟨ids ++ more, ?_, nodup_append.mpr ⟨?_, once, ?_⟩, fun n => by simp [held, members]⟩
    · have found : (scan (stemOf p)).run s = (.ok (s.select (under (stemOf p))), s) := rfl
      simp only [map_cons, probeMatches, stems, bind_eq, pure_eq]
      change ((scan (stemOf p)).bind _).run s = _
      rw [run_bind_of_ok found, parsed]
      change ((probeMatches stem parse (rest.map Scalar.toVal)).bind _).run s = _
      rw [run_bind_of_ok ran]
      rfl
    · refine sorted.imp (fun below same => ?_)
      exact lt_irrefl _ (same ▸ below)
    · rintro n left m right rfl
      obtain ⟨c, member, present⟩ := (members n).mp right
      exact fresh (single p c n ((held n).mp left) present ▸ member)

theorem run_probes {holds : UInt64 → Val → Prop} {probes : List Val}
    (recorded : Recorded holds) (entered : ∀ c n, cell s (key c n) ≠ none ↔ holds n c.toVal)
    (present : d ≠ .null) (listed : equalityProbes d.toVal = some probes)
    : ∃ ids, ((probeMatches stem parse probes).bind (fun ids => ret (sortIDs ids))).run s
        = (.ok ids, s)
      ∧ Lists ids (fun n => ∃ v, holds n v ∧ queryEqual v d.toVal = true) := by
  obtain ⟨ps, rfl, probed⟩ := probes_exact present listed
  have single (a b : Scalar) (n : UInt64) (left : cell s (key a n) ≠ none)
      (right : cell s (key b n) ≠ none)
      : a = b :=
    toVal_inj.mp (recorded.single n _ _ ((entered a n).mp left) ((entered b n).mp right))
  obtain ⟨ids, ran, once, members⟩ := run_probeMatches parse keyed stems covers inj read single
    probed.distinct
  refine ⟨sortIDs ids, ?_, lists_sortIDs once (fun n => ?_)⟩
  · rw [run_bind_of_ok ran]
    rfl
  · rw [members]
    constructor
    · rintro ⟨c, member, stored⟩
      exact ⟨c.toVal, (entered c n).mp stored, (probed.exact c).mpr member⟩
    · rintro ⟨v, held, equal⟩
      obtain ⟨c, rfl⟩ := scalar_of_queryEqual (fun i => recorded.native n v i held) equal
      exact ⟨c, (probed.exact c).mp equal, (entered c n).mpr held⟩

end Probing

theorem run_getNode_of {r : NodeRecord} (found : nodeAt s n = some r) : (getNode n).run s = (.ok ⟨r, n⟩, s) :=
  exec_exact_iff.mp (exec_getNode_of found)

/-- Reading each record keeps those with an accepted value. -/
theorem run_nodesWhere (k : UInt32) (accept : Val → Bool) {ids : List UInt64}
    (records : ∀ n ∈ ids, ∃ r, nodeAt s n = some r)
    : ∃ kept, (nodesWhere k accept ids).run s = (.ok kept, s) ∧ kept.Sublist ids
      ∧ ∀ n, n ∈ kept
        ↔ n ∈ ids ∧ ∃ r v, nodeAt s n = some r ∧ r.props.get k = some v ∧ accept v = true := by
  induction ids with
  | nil => exact ⟨[], rfl, List.Sublist.refl _, by simp⟩
  | cons n rest ih =>
    obtain ⟨r, found⟩ := records n (by simp)
    obtain ⟨more, ran, inside, members⟩ := ih (fun m member => records m (by simp [member]))
    refine ⟨if (r.props.get k).any accept then n :: more else more, ?_, ?_, fun m => ?_⟩
    · simp only [nodesWhere, bind_eq, pure_eq]
      rw [run_bind_of_ok (run_getNode_of found), run_bind_of_ok ran]
      rfl
    · split
      · exact inside.cons_cons n
      · exact inside.cons n
    · have here : (∃ r' v, nodeAt s n = some r' ∧ r'.props.get k = some v ∧ accept v = true)
          ↔ (r.props.get k).any accept = true := by
        rw [found, Option.any_eq_true]
        constructor
        · rintro ⟨r', v, same, held, accepted⟩
          obtain rfl := Option.some.inj same
          exact ⟨v, held, accepted⟩
        · rintro ⟨v, held, accepted⟩
          exact ⟨r, v, rfl, held, accepted⟩
      rw [mem_cons, or_and_right, ← members]
      split
      case isTrue kept =>
        rw [mem_cons]
        refine or_congr_left ⟨?_, And.left⟩
        rintro rfl
        exact ⟨rfl, here.mpr kept⟩
      case isFalse dropped =>
        refine (or_iff_right ?_).symm
        rintro ⟨rfl, accepted⟩
        exact dropped (here.mp accepted)

/-- The nodes with a label, and of these the ones with an accepted value. -/
theorem run_labelScan (keyed : WellKeyed s) (consistent : IndexConsistent s) (l k : UInt32)
    (accept : Val → Bool)
    : ∃ ids, ((nodesByLabel l).bind (nodesWhere k accept)).run s = (.ok ids, s)
      ∧ Lists ids (fun n => ∃ v, NodeHolds s l k n v ∧ accept v = true) := by
  obtain ⟨nodes, listed, increasing, members⟩ := run_nodesByLabel keyed l
  have labelled (n : UInt64) : n ∈ nodes ↔ ∃ r, nodeAt s n = some r ∧ l ∈ r.labels :=
    (members n).trans consistent.label_iff
  obtain ⟨ids, ran, inside, kept⟩ := run_nodesWhere k accept
    (fun n member => ((labelled n).mp member).imp (fun _ => And.left))
  refine ⟨ids, by rw [run_bind_of_ok listed, ran], increasing.sublist inside, fun n => ?_⟩
  rw [kept, labelled]
  constructor
  · rintro ⟨⟨r, found, member⟩, r', v, found', held, accepted⟩
    obtain rfl := Option.some.inj (found.symm.trans found')
    exact ⟨v, ⟨r, found, member, held⟩, accepted⟩
  · rintro ⟨v, ⟨r, found, member, held⟩, accepted⟩
    exact ⟨⟨r, found, member⟩, r, v, found, held, accepted⟩

/-- The scanned edge records all decode, and come in ID order. -/
theorem edgesOfType_listed {t : UInt32} {entries : List (Bytes × Bytes)}
    (records : ∀ entry ∈ entries, ∃ e r, entry.1 = (Key.edge e).bytes ∧ decodeEdge entry.2 = .ok r)
    (sorted : entries.Pairwise (fun a b => a.1 < b.1))
    : ∃ edges, edgesOfType t entries = .ok edges ∧ edges.Pairwise (fun a b => a.id < b.id)
      ∧ ∀ e ∈ edges, ∃ entry ∈ entries, entry.1 = (Key.edge e.id).bytes := by
  induction entries with
  | nil => exact ⟨[], rfl, by simp, by simp⟩
  | cons entry rest ih =>
    obtain ⟨key, b⟩ := entry
    obtain ⟨e, r, rfl, decoded⟩ := records (key, b) (by simp)
    obtain ⟨above, others⟩ := pairwise_cons.mp sorted
    obtain ⟨edges, listed, increasing, keys⟩ :=
      ih (fun entry member => records entry (by simp [member])) others
    have later : ∀ edge ∈ edges, e < edge.id := by
      intro edge member
      obtain ⟨entry, inside, name⟩ := keys edge member
      have below := above entry inside
      rw [name] at below
      simpa [Key.bytes, Key.tag, Key.body, cons_lt_cons_iff] using below
    by_cases type : r.type = t
    · refine ⟨⟨r, e⟩ :: edges, ?_, pairwise_cons.mpr ⟨later, increasing⟩, ?_⟩
      · simp only [edgesOfType, decoded, listed, ← Key.edgeKey_eq, edgeIDFromKey_edgeKey]
        simp [type, Bind.bind, Except.bind, Pure.pure, Except.pure]
      · intro edge member
        rcases mem_cons.mp member with rfl | member
        · exact ⟨_, mem_cons_self, rfl⟩
        · obtain ⟨entry, inside, name⟩ := keys edge member
          exact ⟨entry, mem_cons_of_mem _ inside, name⟩
    · refine ⟨edges, ?_, increasing, fun edge member => ?_⟩
      · simp only [edgesOfType, decoded, listed]
        simp [type, Bind.bind, Except.bind]
      · obtain ⟨entry, inside, name⟩ := keys edge member
        exact ⟨entry, mem_cons_of_mem _ inside, name⟩

theorem run_edgesWhere (keyed : WellKeyed s) (consistent : IndexConsistent s) (t k : UInt32)
    (accept : Val → Bool)
    : ∃ ids, (edgesWhere t k accept).run s = (.ok ids, s)
      ∧ Lists ids (fun e => ∃ v, EdgeHolds s t k e v ∧ accept v = true) := by
  have found (entry : Bytes × Bytes) : entry ∈ s.select (under edgePrefix)
      ↔ ∃ e, entry.1 = (Key.edge e).bytes ∧ cell s (.edge e) = some entry.2 := by
    rw [mem_select_under keyed]
    constructor
    · rintro ⟨κ, name, held, inside⟩
      obtain ⟨e, rfl⟩ := under_edgePrefix.mp inside
      exact ⟨e, name, held⟩
    · rintro ⟨e, name, held⟩
      exact ⟨.edge e, name, held, under_edgePrefix.mpr ⟨e, rfl⟩⟩
  obtain ⟨edges, listed, increasing, _⟩ := edgesOfType_listed (t := t) (fun entry member => by
    obtain ⟨e, name, held⟩ := (found entry).mp member
    obtain ⟨r, decoded⟩ := consistent.edges e entry.2 held
    exact ⟨e, r, name, decoded⟩) (s.select_sorted (under edgePrefix))
  refine ⟨(edges.filter (fun e => (e.props.get k).any accept)).map Edge.id, ?_, ?_, fun e => ?_⟩
  · simp only [edgesWhere, bind_eq, pure_eq]
    rw [run_bind_of_ok (show (scan edgePrefix).run s = (.ok (s.select (under edgePrefix)), s) from rfl),
      listed]
    rfl
  · exact pairwise_map.mpr (increasing.filter _)
  · have member (e : Edge) : e ∈ edges ↔ edgeAt s e.id = some e.toEdgeRecord ∧ e.type = t := by
      rw [mem_edgesOfType listed]
      constructor
      · rintro ⟨entry, inside, decoded, type, number⟩
        obtain ⟨id, name, held⟩ := (found entry).mp inside
        rw [name, ← Key.edgeKey_eq, edgeIDFromKey_edgeKey, Except.ok.injEq] at number
        subst number
        refine ⟨?_, type⟩
        rw [edgeAt, held, Option.bind_some, decoded]
        rfl
      · rintro ⟨record, type⟩
        obtain ⟨b, held, decoded⟩ := decoded_iff.mp record
        exact ⟨((Key.edge e.id).bytes, b), (found _).mpr ⟨e.id, rfl, held⟩, decoded, type,
          edgeIDFromKey_edgeKey e.id⟩
    rw [mem_map]
    constructor
    · rintro ⟨edge, inside, rfl⟩
      obtain ⟨inside, accepted⟩ := mem_filter.mp inside
      obtain ⟨v, held, accepted⟩ := (Option.any_eq_true _ _).mp accepted
      obtain ⟨record, type⟩ := (member edge).mp inside
      exact ⟨v, ⟨edge.toEdgeRecord, record, type, held⟩, accepted⟩
    · rintro ⟨v, ⟨r, record, type, held⟩, accepted⟩
      exact ⟨⟨r, e⟩, mem_filter.mpr ⟨(member ⟨r, e⟩).mpr ⟨record, type⟩,
        (Option.any_eq_true _ _).mpr ⟨v, held, accepted⟩⟩, rfl⟩

theorem run_hasIndex (l k : UInt32) : (Catalog.hasIndex l k).run s = (.ok (cell s (.index l k)).isSome, s) :=
  rfl

theorem run_hasRelIndex (t k : UInt32)
    : (Catalog.hasRelIndex t k).run s = (.ok (cell s (.relIndex t k)).isSome, s) :=
  rfl

/-- An equality lookup lists the nodes whose value equals the given one, through an index and
without one.
-/
theorem run_nodesByProperty (keyed : WellKeyed s) (consistent : IndexConsistent s) (l k : UInt32)
    (present : d ≠ .null)
    : ∃ ids, (nodesByProperty l k d.toVal).run s = (.ok ids, s)
      ∧ Lists ids (fun n => ∃ v, NodeHolds s l k n v ∧ queryEqual v d.toVal = true) := by
  have scan := run_labelScan keyed consistent l k (queryEqual · d.toVal)
  have indexable : isIndexable d.toVal = true := isIndexable_iff.mpr ⟨d, rfl⟩
  simp only [nodesByProperty, normalize_toVal, bind_eq, pure_eq, indexable, Bool.and_true]
  rw [run_bind_of_ok (run_hasIndex l k)]
  cases listed : equalityProbes d.toVal with
  | none => exact scan
  | some probes =>
    cases indexed : (cell s (.index l k)).isSome with
    | false => exact scan
    | true =>
      have registered : Indexed s l k := Option.isSome_iff_ne_none.mp indexed
      exact run_probes parsePropKeyNode keyed (propPrefix_eq l k) (fun c κ => under_propValue)
        (fun c m n same => (Key.prop.inj same).2.2.2) (parsePropKeyNode_bytes l k)
        (recorded_nodes l k)
        (fun c n => consistent.prop_iff.trans (and_iff_right registered)) present listed

theorem run_edgesByProperty (keyed : WellKeyed s) (consistent : IndexConsistent s) (t k : UInt32)
    (present : d ≠ .null)
    : ∃ ids, (edgesByProperty t k d.toVal).run s = (.ok ids, s)
      ∧ Lists ids (fun e => ∃ v, EdgeHolds s t k e v ∧ queryEqual v d.toVal = true) := by
  have scan := run_edgesWhere keyed consistent t k (queryEqual · d.toVal)
  have indexable : isIndexable d.toVal = true := isIndexable_iff.mpr ⟨d, rfl⟩
  have nonnull : isNull d.toVal = false := by
    cases d <;> first | rfl | exact absurd rfl present
  simp only [edgesByProperty, normalize_toVal, bind_eq, pure_eq, indexable, Bool.and_true, nonnull,
    Bool.false_eq_true, if_false]
  rw [run_bind_of_ok (run_hasRelIndex t k)]
  cases listed : equalityProbes d.toVal with
  | none => exact scan
  | some probes =>
    cases indexed : (cell s (.relIndex t k)).isSome with
    | false => exact scan
    | true =>
      have registered : RelIndexed s t k := Option.isSome_iff_ne_none.mp indexed
      exact run_probes (fun b => Prod.snd <$> parseRelPropKey b) keyed (relPropPrefix_eq t k)
        (fun c κ => under_relPropValue) (fun c m n same => (Key.relProp.inj same).2.2.2)
        (fun c e => congrArg (Prod.snd <$> ·) (parseRelPropKey_bytes t k c e))
        (recorded_edges t k)
        (fun c n => consistent.relProp_iff.trans (and_iff_right registered)) present listed

end Intreccio.Graph
