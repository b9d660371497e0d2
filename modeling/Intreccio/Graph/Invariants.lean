import Intreccio.Graph.Runs

/-! The invariants of reachable stores, stated on the stored bytes: the derived keys are exactly
those the records imply, and the owner keys of a constraint are exactly those of the nodes under
it.
-/

namespace Intreccio.Graph

open Kv Kv.Program Words Codec Catalog

variable {cov : Coverage} {s : Store} {history : History}

/-- The conditions under which the operations are called: no property is set to null, an
index, a relationship index or a constraint is created where there is none, and an index is
dropped where no constraint rests on it.
-/
def Op.Permitted (s : Store) : Op → Prop
  | setProperty _ _ value => isNull (normalize value.val) = false
  | buildIndex l k _ => ¬ Indexed s l k
  | dropIndexEntries l k => ¬ Constrained s l k
  | buildRelIndex t k _ => ¬ RelIndexed s t k
  | addUniqueConstraint l k _ => ¬ Constrained s l k
  | _ => True

theorem Op.Permitted.respects (op : Op) (permitted : op.Permitted s) : op.Respects .all s := by
  cases op <;> first | exact trivial | exact .inl permitted | exact permitted

theorem guarded_founding : Guarded Op.Permitted .empty founding :=
  ⟨by simp [Op.Permitted, Constrained], fun _ _ _ => ⟨trivial, fun _ _ _ => trivial⟩⟩

def Stored (s : Store) (tag : UInt8) (key : Bytes) : Prop :=
  s.get key ≠ none ∧ key.head? = some tag

/-- The derived keys, byte by byte, are exactly those the records imply. -/
structure IndexConsistent (s : Store) : Prop where
  nodes : ∀ n b, s.get (nodeKey n) = some b → ∃ r, decodeNode b = .ok r
  edges : ∀ e b, s.get (edgeKey e) = some b → ∃ r, decodeEdge b = .ok r
  labels
    : ∀ key, Stored s KeyLabel key
        ↔ ∃ n r l, nodeAt s n = some r ∧ l ∈ r.labels ∧ key = labelKey l n
  props
    : ∀ key, Stored s KeyProp key
        ↔ ∃ l k n r v, s.get (indexKey l k) ≠ none ∧ nodeAt s n = some r ∧ l ∈ r.labels
          ∧ r.props.get k = some v ∧ isIndexable v = true ∧ Codec.propKey l k v n = .ok key
  outs
    : ∀ key, Stored s KeyOut key
        ↔ ∃ e r, edgeAt s e = some r ∧ key = outKey r.src r.type r.dst e
  ins
    : ∀ key, Stored s KeyIn key
        ↔ ∃ e r, edgeAt s e = some r ∧ key = inKey r.dst r.type r.src e
  rels
    : ∀ key, Stored s KeyRelProp key
        ↔ ∃ t k e r v, s.get (relIndexKey t k) ≠ none ∧ edgeAt s e = some r ∧ r.type = t
          ∧ r.props.get k = some v ∧ isIndexable v = true ∧ relPropKey t k v e = .ok key

/-- A stored key with a tag is a key of the tag's table. -/
theorem stored_iff (keyed : WellKeyed s) {tag : UInt8} {key : Bytes}
    : Stored s tag key
      ↔ ∃ κ : Key, κ.table = Key.tableOf tag ∧ cell s κ ≠ none ∧ key = κ.bytes := by
  constructor
  · rintro ⟨present, first⟩
    obtain ⟨κ, rfl⟩ := keyed key present
    exact ⟨κ, tag_eq_iff.mp (Option.some.inj first), present, rfl⟩
  · rintro ⟨κ, table, present, rfl⟩
    exact ⟨present, congrArg some (tag_eq_iff.mpr table)⟩

theorem isIndexable_iff {v : Val} : isIndexable v = true ↔ ∃ c : Scalar, v = c.toVal := by
  rw [isIndexable, Option.isSome_iff_exists]
  exact exists_congr (fun c => Val.scalar?_eq_some)

/-- The `o` keys are those of the edge records. -/
theorem Consistent.stored_out (consistent : Consistent cov s) {key : Bytes}
    : Stored s KeyOut key ↔ ∃ e r, edgeAt s e = some r ∧ key = outKey r.src r.type r.dst e := by
  rw [stored_iff consistent.nodes.keyed]
  constructor
  · rintro ⟨κ, table, present, rfl⟩
    cases κ with
    | out src t dst e =>
      obtain ⟨r, found, rfl, rfl, rfl⟩ := ((consistent.edges e).outs src t dst).mp present
      exact ⟨e, r, found, rfl⟩
    | forward d _ => cases d <;> cases table
    | _ => cases table
  · rintro ⟨e, r, found, rfl⟩
    exact ⟨.out r.src r.type r.dst e, rfl,
      ((consistent.edges e).outs _ _ _).mpr ⟨r, found, rfl, rfl, rfl⟩, rfl⟩

/-- The `i` keys are those of the edge records. -/
theorem Consistent.stored_in (consistent : Consistent cov s) {key : Bytes}
    : Stored s KeyIn key ↔ ∃ e r, edgeAt s e = some r ∧ key = inKey r.dst r.type r.src e := by
  rw [stored_iff consistent.nodes.keyed]
  constructor
  · rintro ⟨κ, table, present, rfl⟩
    cases κ with
    | inn dst t src e =>
      obtain ⟨r, found, rfl, rfl, rfl⟩ := ((consistent.edges e).ins dst t src).mp present
      exact ⟨e, r, found, rfl⟩
    | forward d _ => cases d <;> cases table
    | _ => cases table
  · rintro ⟨e, r, found, rfl⟩
    exact ⟨.inn r.dst r.type r.src e, rfl,
      ((consistent.edges e).ins _ _ _).mpr ⟨r, found, rfl, rfl, rfl⟩, rfl⟩

/-- The laws of the store say what its bytes are. -/
theorem Consistent.index (consistent : Consistent .all s) : IndexConsistent s := by
  have keyed := consistent.nodes.keyed
  refine ⟨fun n b => (consistent.nodes.aligned n).readable b,
    fun e b => (consistent.edges e).readable b, fun key => ?_, fun key => ?_,
    fun _ => consistent.stored_out, fun _ => consistent.stored_in, fun key => ?_⟩
  · rw [stored_iff keyed]
    constructor
    · rintro ⟨κ, table, present, rfl⟩
      cases κ with
      | label l n =>
        obtain ⟨r, found, member⟩ := ((consistent.nodes.aligned n).labels l).mp present
        exact ⟨n, r, l, found, member, rfl⟩
      | forward d _ => cases d <;> cases table
      | _ => cases table
    · rintro ⟨n, r, l, found, member, rfl⟩
      exact ⟨.label l n, rfl, ((consistent.nodes.aligned n).labels l).mpr ⟨r, found, member⟩, rfl⟩
  · rw [stored_iff keyed]
    constructor
    · rintro ⟨κ, table, present, rfl⟩
      cases κ with
      | prop l k c n =>
        obtain ⟨indexed, r, found, member, held⟩ :=
          ((consistent.nodes.entered l k).props c n trivial).mp present
        exact ⟨l, k, n, r, c.toVal, indexed, found, member, held, isIndexable_iff.mpr ⟨c, rfl⟩,
          Key.propKey_eq l k c n⟩
      | forward d _ => cases d <;> cases table
      | _ => cases table
    · rintro ⟨l, k, n, r, v, indexed, found, member, held, indexable, made⟩
      obtain ⟨c, rfl⟩ := isIndexable_iff.mp indexable
      rw [Key.propKey_eq, Except.ok.injEq] at made
      exact ⟨.prop l k c n, rfl, ((consistent.nodes.entered l k).props c n trivial).mpr
        ⟨indexed, r, found, member, held⟩, made.symm⟩
  · rw [stored_iff keyed]
    constructor
    · rintro ⟨κ, table, present, rfl⟩
      cases κ with
      | relProp t k c e =>
        obtain ⟨indexed, r, found, type, held⟩ := ((consistent.edges e).rels t k c).mp present
        exact ⟨t, k, e, r, c.toVal, indexed, found, type, held, isIndexable_iff.mpr ⟨c, rfl⟩,
          Key.relPropKey_eq t k c e⟩
      | forward d _ => cases d <;> cases table
      | _ => cases table
    · rintro ⟨t, k, e, r, v, indexed, found, type, held, indexable, made⟩
      obtain ⟨c, rfl⟩ := isIndexable_iff.mp indexable
      rw [Key.relPropKey_eq, Except.ok.injEq] at made
      exact ⟨.relProp t k c e, rfl,
        ((consistent.edges e).rels t k c).mpr ⟨indexed, r, found, type, held⟩, made.symm⟩

/-- Index consistency: in every state reached by transactions of mutations and index changes,
as long as at most `2 ^ 64` nodes and as many edges were created, the derived keys are exactly
those the records imply.
-/
theorem indexConsistent_of_reached (reached : Reached Op.Permitted history s)
    (few : Few history)
    : IndexConsistent s :=
  (reached.sound (fun _ => Op.Permitted.respects) few).2.index

theorem indexConsistent_founded : IndexConsistent founded :=
  indexConsistent_of_reached (reached_founded guarded_founding) few_founded

/-- Without the bound index consistency fails.
Witness: a labelled node, then `2 ^ 64` bare ones; the last takes the first one's ID.
-/
theorem not_indexConsistent_of_reached
    : ¬ ∀ history s, Reached Op.Permitted history s → IndexConsistent s := by
  intro always
  obtain ⟨history, s, reached, record, _, framed⟩ :=
    (reached_founded guarded_founding).wrapped (fun _ => trivial) (by decide +kernel)
  have stale : Stored s KeyLabel (labelKey 1 1) := by
    refine ⟨?_, rfl⟩
    have kept := framed (.label 1 1) (by simp) (by simp)
    rw [Key.labelKey_eq, ← cell, kept]
    decide +kernel
  obtain ⟨n, r, l, found, member, same⟩ := ((always history s reached).labels _).mp stale
  rw [Key.labelKey_eq, Key.labelKey_eq, Key.bytes_inj, Key.label.injEq] at same
  obtain ⟨rfl, rfl⟩ := same
  obtain rfl := Option.some.inj (record.symm.trans found)
  cases member

/-- Among the indexable values only NaN has no canonical form. -/
theorem uniqueValue_eq_none {c : Scalar} : uniqueValue c = none ↔ ∃ f, c = .float f ∧ f.isNaN = true := by
  cases c with
  | float f =>
    simp only [uniqueValue, Scalar.float.injEq, exists_eq_left']
    split
    · simp [*]
    · split <;> simp [*]
  | _ => simp [uniqueValue]

/-- The key the node owns under the pair: that of the canonical form of its value. -/
def Owns (s : Store) (l k : UInt32) (n : UInt64) (key : Bytes) : Prop :=
  ∃ r v c d, nodeAt s n = some r ∧ l ∈ r.labels ∧ r.props.get k = some v ∧ v.scalar? = some c
    ∧ uniqueValue c = some d ∧ uniqueKey l k d.toVal = .ok key

/-- The owner keys under a constraint and the nodes under it correspond one to one, each key
holding its node's ID; a pair without constraint has none, and a constrained pair is indexed.
-/
structure UniqueOwnership (s : Store) : Prop where
  owner
    : ∀ l k, Constrained s l k → ∀ key b, uniquePrefix l k <+: key → s.get key = some b
        → ∃! n, Owns s l k n key ∧ b = uint64Bytes n
  owned
    : ∀ l k, Constrained s l k → ∀ n r (c : Scalar), nodeAt s n = some r → l ∈ r.labels
        → r.props.get k = some c.toVal → ¬ (∃ f, c = .float f ∧ f.isNaN = true)
        → ∃! key, Owns s l k n key ∧ s.get key = some (uint64Bytes n)
  distinct
    : ∀ l k, Constrained s l k → ∀ m n key, Owns s l k m key → Owns s l k n key → m = n
  vacant
    : ∀ l k, ¬ Constrained s l k → ∀ key, uniquePrefix l k <+: key → s.get key = none
  paired
    : ∀ key, Stored s KeyUnique key → ∃ l k, uniquePrefix l k <+: key
  backed : ∀ l k, Constrained s l k → Indexed s l k

theorem owns_iff {l k : UInt32} {n : UInt64} {key : Bytes}
    : Owns s l k n key
      ↔ ∃ c d, Carries s n l k c ∧ uniqueValue c = some d ∧ key = (Key.unique l k d).bytes := by
  constructor
  · rintro ⟨r, v, c, d, found, member, held, scalar, canon, made⟩
    obtain rfl := Val.scalar?_eq_some.mp scalar
    rw [Key.uniqueKey_eq, Except.ok.injEq] at made
    exact ⟨c, d, ⟨r, found, member, held⟩, canon, made.symm⟩
  · rintro ⟨c, d, ⟨r, found, member, held⟩, canon, rfl⟩
    exact ⟨r, c.toVal, c, d, found, member, held, by simp, canon, Key.uniqueKey_eq l k d⟩

theorem prefix_iff_under {stem key : Bytes} : stem <+: key ↔ under stem key = true :=
  List.isPrefixOf_iff_prefix.symm

/-- A node has at most one value under a pair. -/
theorem Carries.value_unique {n : UInt64} {l k : UInt32} {a b : Scalar}
    (left : Carries s n l k a) (right : Carries s n l k b)
    : a = b := by
  obtain ⟨r, found, _, held⟩ := left
  obtain ⟨r', found', _, held'⟩ := right
  obtain rfl := Option.some.inj (found.symm.trans found')
  exact toVal_inj.mp (Option.some.inj (held.symm.trans held'))

theorem NodeLaws.ownership (laws : NodeLaws .all s) : UniqueOwnership s := by
  have distinct : ∀ l k, Constrained s l k → ∀ m n key, Owns s l k m key → Owns s l k n key
      → m = n := by
    intro l k constrained m n key left right
    obtain ⟨a, d, carried, canon, rfl⟩ := owns_iff.mp left
    obtain ⟨b, d', carried', canon', same⟩ := owns_iff.mp right
    rw [Key.bytes_inj, Key.unique.injEq] at same
    obtain ⟨_, _, rfl⟩ := same
    exact laws.unique constrained carried carried' canon canon'
  refine ⟨fun l k constrained key b inside held => ?_,
    fun l k constrained n r c found member value number => ?_, distinct,
    fun l k free key inside => ?_, fun key stored => ?_, fun l k => (laws.entered l k).backed⟩
  · obtain ⟨κ, rfl⟩ := laws.keyed key (by simp [held])
    obtain ⟨d, rfl⟩ := under_uniquePrefix.mp (prefix_iff_under.mp inside)
    obtain ⟨_, n, c, carried, canon, rfl⟩ := ((laws.entered l k).owners d b trivial).mp held
    have owns : Owns s l k n (Key.unique l k d).bytes := owns_iff.mpr ⟨c, d, carried, canon, rfl⟩
    exact ⟨n, ⟨owns, rfl⟩, fun m other => distinct l k constrained m n _ other.1 owns⟩
  · have carried : Carries s n l k c := ⟨r, found, member, value⟩
    obtain ⟨d, canon⟩ := Option.ne_none_iff_exists'.mp (mt uniqueValue_eq_none.mp number)
    have held := ((laws.entered l k).owners d _ trivial).mpr
      ⟨constrained, n, c, carried, canon, rfl⟩
    refine ⟨(Key.unique l k d).bytes, ⟨owns_iff.mpr ⟨c, d, carried, canon, rfl⟩, held⟩, ?_⟩
    rintro key ⟨owns, _⟩
    obtain ⟨c', d', carried', canon', rfl⟩ := owns_iff.mp owns
    obtain rfl := carried.value_unique carried'
    rw [Option.some.inj (canon.symm.trans canon')]
  · by_contra present
    obtain ⟨b, held⟩ := Option.ne_none_iff_exists'.mp present
    obtain ⟨κ, rfl⟩ := laws.keyed key present
    obtain ⟨d, rfl⟩ := under_uniquePrefix.mp (prefix_iff_under.mp inside)
    exact free (((laws.entered l k).owners d b trivial).mp held).1
  · obtain ⟨κ, table, _, rfl⟩ := (stored_iff laws.keyed).mp stored
    cases κ with
    | unique l k d => exact ⟨l, k, prefix_iff_under.mpr (under_uniquePrefix.mpr ⟨d, rfl⟩)⟩
    | forward d _ => cases d <;> cases table
    | _ => cases table

/-- Ownership is exact: in every state reached by transactions that set no property to null and
drop no index under a constraint, as long as at most `2 ^ 64` nodes and as many edges were created,
the owner keys of each constraint are those of the nodes under it.
-/
theorem uniqueOwnership_of_reached (reached : Reached (Op.Respects .all) history s) (few : Few history)
    : UniqueOwnership s :=
  (reached.sound (fun _ _ respects => respects) few).2.nodes.ownership

theorem guarded_founding_respects : Guarded (Op.Respects .all) .empty founding :=
  ⟨trivial, fun _ _ _ => ⟨trivial, fun _ _ _ => trivial⟩⟩

theorem uniqueOwnership_founded : UniqueOwnership founded :=
  uniqueOwnership_of_reached (reached_founded guarded_founding_respects) few_founded

/-- No property is set to null; everything else may be called anywhere. -/
def Op.SetsNonNull : Op → Prop
  | setProperty _ _ value => isNull (normalize value.val) = false
  | _ => True

/-- The constraint is registered, the node created, and the index under the constraint dropped. -/
def unbacking : Script := founding ++ [(.dropIndexEntries 1 1, steady)]

/-- Neither condition can be left out. Without the bound the owner key of the first node stays when a
bare node takes its ID; and where indexes under constraints may be dropped, a constraint is left
without an index.
-/
theorem not_uniqueOwnership_of_reached
    : (¬ ∀ history s, Reached (Op.Respects .all) history s → UniqueOwnership s)
      ∧ ¬ ∀ history s, Reached (fun _ => Op.SetsNonNull) history s → Few history → UniqueOwnership s := by
  constructor
  · intro always
    obtain ⟨history, s, reached, record, _, framed⟩ :=
      (reached_founded guarded_founding_respects).wrapped (fun _ => trivial) (by decide +kernel)
    have constrained : Constrained s 1 1 := by
      rw [Constrained, framed (.constraint 1 1) (by simp) (by simp)]
      decide +kernel
    have stale : s.get (Key.unique 1 1 (.int 5)).bytes = some (uint64Bytes 1) := by
      rw [← cell, framed (.unique 1 1 (.int 5)) (by simp) (by simp)]
      decide +kernel
    obtain ⟨n, ⟨owns, number⟩, _⟩ := (always history s reached).owner 1 1 constrained _ _
      (prefix_iff_under.mpr (under_uniquePrefix.mpr ⟨_, rfl⟩)) stale
    obtain ⟨c, d, ⟨r, found, member, _⟩, _⟩ := owns_iff.mp owns
    rw [← uint64Bytes_inj.mp number] at found
    obtain rfl := Option.some.inj (record.symm.trans found)
    cases member
  · intro always
    have guarded : Guarded (fun _ => Op.SetsNonNull) .empty unbacking :=
      ⟨trivial, fun _ _ _ => ⟨trivial, fun _ _ _ => ⟨trivial, fun _ _ _ => trivial⟩⟩⟩
    have ran : (script unbacking).run .empty
        = (.ok [.done, .node 1, .done], ((script unbacking).run .empty).2) := rfl
    have ownership := always _ _ (.commit .empty guarded ran) ⟨by decide, by decide⟩
    have constrained : Constrained ((script unbacking).run .empty).2 1 1 := by
      rw [Constrained]
      decide +kernel
    exact ownership.backed 1 1 constrained (by decide +kernel)

end Intreccio.Graph
