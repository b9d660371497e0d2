import Intreccio.Graph.EntryRemoval
import Intreccio.Graph.Invariants
import Intreccio.Graph.Refinement

/-! Setting a property to null (`internal/graph/crud.go`, `unique.go`). The record loses the
property as it does when the property is removed, but `SetProperty` enters the null value into the
node's indexes and claims it under their constraints.
-/

namespace Intreccio.Graph

open Kv Kv.Program Words Codec Catalog OrderedMap

variable {s s' : Store} {n : UInt64} {l k : UInt32} {v : Val}

/-- The keys of the null value under one pair. -/
def NullKey (n : UInt64) (l k : UInt32) (κ : Key) : Prop := κ = .prop l k .null n ∨ κ = .unique l k .null

/-- The null keys of a node under one property, and what decides about them, are the same. -/
structure NullsKept (n : UInt64) (k : UInt32) (s s' : Store) : Prop where
  index : ∀ l, cell s' (.index l k) = cell s (.index l k)
  constraint : ∀ l, cell s' (.constraint l k) = cell s (.constraint l k)
  null : ∀ l κ, NullKey n l k κ → cell s' κ = cell s κ

theorem NullsKept.refl (n : UInt64) (k : UInt32) (s : Store) : NullsKept n k s s :=
  ⟨fun _ => rfl, fun _ => rfl, fun _ _ _ => rfl⟩

theorem NullsKept.trans {s₁ s₂ s₃ : Store} (first : NullsKept n k s₁ s₂) (second : NullsKept n k s₂ s₃)
    : NullsKept n k s₁ s₃ where
  index l := (second.index l).trans (first.index l)
  constraint l := (second.constraint l).trans (first.constraint l)
  null l κ here := (second.null l κ here).trans (first.null l κ here)

theorem nullsKept_of_others (unchanged : ∀ κ, κ ≠ .node n → cell s' κ = cell s κ) : NullsKept n k s s' :=
  ⟨fun _ => unchanged _ (by simp), fun _ => unchanged _ (by simp), fun _ κ null => unchanged κ (by
    rcases null with rfl | rfl <;> simp)⟩

variable {u : Unit}

/-- Removing the entry of a value that is not null keeps the null keys. -/
theorem nullsKept_delPropEntry (present : v ≠ .null)
    (ran : (delPropEntry l k v n).Exec .exact s (.ok u) s')
    : NullsKept n k s s' := by
  have framed := (within_editEntry false l k v n).framed ran
  refine ⟨fun _ => framed.frame _ id, fun _ => framed.frame _ id, fun l' κ null => ?_⟩
  have apart {c : Scalar} (scalar : v.scalar? = some c) : c ≠ .null := by
    rintro rfl
    exact present (Val.scalar?_eq_some.mp scalar)
  refine exec_editEntry_frame false ran (fun c scalar => ?_) (fun c d scalar canon => ?_)
  · rcases null with rfl | rfl <;> simp [(apart scalar).symm]
  · have same : Coverage.present.covers d ↔ Coverage.present.covers c := Coverage.covers_unique canon
    have other : d ≠ .null := same.mpr (apart scalar)
    rcases null with rfl | rfl <;> simp [other.symm]

/-- The null value is entered for the label wherever an index or a constraint asks for it. -/
def NullHeld (s : Store) (n : UInt64) (k l : UInt32) : Prop :=
  Indexed s l k → cell s (.prop l k .null n) ≠ none
    ∧ (Constrained s l k → cell s (.unique l k .null) = some (uint64Bytes n))

theorem NullsKept.held (kept : NullsKept n k s s') : NullHeld s' n k l ↔ NullHeld s n k l := by
  simp only [NullHeld, Indexed, Constrained, kept.index, kept.constraint, kept.null l _ (.inl rfl),
    kept.null l _ (.inr rfl)]

/-- Entering null where it is entered changes nothing. -/
theorem Legible.putPropEntry_null (legible : Legible s) (held : NullHeld s n k l)
    : (putPropEntry l k .null n).Exec .exact s (.ok ()) s := by
  change (editEntry true l k Scalar.null.toVal n).Exec .exact s (.ok ()) s
  rw [editEntry_toVal]
  refine exec_gated_of (exec_hasIndex_cell s l k) (fun indexed => ?_) (fun _ => rfl)
  obtain ⟨entry, owner⟩ := held indexed
  -- The entry is empty already, so writing it again gives the same store.
  have same : s.set (Key.prop l k .null n).bytes [] = s := by
    obtain ⟨b, present⟩ := Option.ne_none_iff_exists'.mp entry
    obtain rfl : b = [] := legible _ b present
    apply OrderedMap.ext
    intro key
    rw [get_set]
    split
    case isTrue here => exact here ▸ present.symm
    case isFalse => rfl
  refine exec_bind_ok.mpr ⟨(), s, exec_mark.mpr same.symm, ?_⟩
  refine exec_gated_of (legible.exec_hasUnique l k) (fun constrained => ?_) (fun _ => rfl)
  have read := legible.exec_valueOwner l k .null
  rw [owner constrained, Option.map_some, uint64OfBytes_uint64Bytes] at read
  simp only [editOwner, claimValue, uniqueValue, Key.uniqueKey_eq, bind_eq, ofExcept_ok_bind, if_true]
  rw [exec_bind_ok]
  refine ⟨some n, s, read, ?_⟩
  simp

/-- Entering null, when it succeeds, leaves it entered. -/
theorem Legible.nullHeld_putPropEntry (legible : Legible s)
    (ran : (putPropEntry l k .null n).Exec .exact s (.ok u) s')
    : NullHeld s' n k l := by
  intro indexed
  have framed := (within_editEntry true l k .null n).framed ran
  rw [Indexed, framed.frame (.index l k) id] at indexed
  rw [Constrained, framed.frame (.constraint l k) id]
  rcases exec_editEntry true ran with ⟨nothing, _⟩ | ⟨c, scalar, _, outcome⟩
  · exact absurd (nothing.resolve_left (by simp [Val.scalar?])) indexed
  · obtain rfl : Scalar.null = c := Option.some.inj scalar
    rcases outcome with ⟨free, rfl⟩ | ⟨_, owned⟩
    · exact ⟨by simp, fun constrained => absurd free constrained⟩
    · have wide (b : Bytes) (held : cell s (.unique l k .null) = some b) : ∃ m, b = uint64Bytes m :=
        legible _ b held
      refine ⟨?_, fun _ => (owned.owner (by simpa using wide)).mpr (.inr ⟨rfl, rfl⟩)⟩
      rw [owned.frame (by simp)]
      simp

theorem NullHeld.putPropEntry {l' : UInt32} (held : NullHeld s n k l')
    (ran : (putPropEntry l k .null n).Exec .exact s (.ok u) s') (other : l' ≠ l)
    : NullHeld s' n k l' := by
  have framed := (within_editEntry true l k .null n).framed ran
  have null (κ : Key) (here : NullKey n l' k κ) : cell s' κ = cell s κ :=
    exec_editEntry_frame true ran (fun _ _ => by rcases here with rfl | rfl <;> simp [other])
      (fun _ _ _ _ => by rcases here with rfl | rfl <;> simp [other])
  intro indexed
  rw [Indexed, framed.frame (.index l' k) id] at indexed
  rw [null _ (.inl rfl), null _ (.inr rfl), Constrained, framed.frame (.constraint l' k) id]
  exact held indexed

/-- What `SetProperty` and `RemoveProperty` do about the old value under one label. -/
def dropEntry (n : UInt64) (k : UInt32) (old : Option Val) (l : UInt32) : Txn Unit :=
  match old with
  | some v => delPropEntry l k v n
  | none => .ret ()

/-- What `SetProperty` does under one label when the value is null. -/
def nullEntry (n : UInt64) (k : UInt32) (old : Option Val) (l : UInt32) : Txn Unit :=
  (dropEntry n k old l).bind (fun _ => putPropEntry l k .null n)

variable {old : Option Val} {labels : List UInt32}

theorem Legible.exec_dropEntry (legible : Legible s) (n : UInt64) (k : UInt32) (old : Option Val)
    (l : UInt32)
    : ∃ s', (dropEntry n k old l).Exec .exact s (.ok ()) s' := by
  cases old with
  | none => exact ⟨s, exec_ret.mpr ⟨rfl, rfl⟩⟩
  | some v => exact legible.exec_delPropEntry l k v n

/-- The null keys and the legibility survive, for an old value that is not null. -/
theorem kept_dropEntry (present : old ≠ some .null) (legible : Legible s)
    (ran : (dropEntry n k old l).Exec .exact s (.ok u) s')
    : NullsKept n k s s' ∧ Legible s' := by
  cases old with
  | none =>
    obtain ⟨_, rfl⟩ := exec_ret.mp ran
    exact ⟨.refl n k s', legible⟩
  | some v =>
    have value : v ≠ .null := fun null => present (null ▸ rfl)
    exact ⟨nullsKept_delPropEntry value ran, (legible_editEntry false l k v n _ _ _ legible ran).1⟩

theorem Legible.exec_dropEntries (legible : Legible s) (n : UInt64) (k : UInt32)
    (present : old ≠ some .null) (labels : List UInt32)
    : ∃ s', (each labels (dropEntry n k old)).Exec .exact s (.ok ()) s' :=
  exec_each_total _ _ (fun l _ _ still => still.exec_dropEntry n k old l)
    (fun _ _ _ _ _ still ran => ⟨(kept_dropEntry present still ran).2, trivial⟩) legible

theorem kept_dropEntries (present : old ≠ some .null) (legible : Legible s)
    (ran : (each labels (dropEntry n k old)).Exec .exact s (.ok u) s')
    : NullsKept n k s s' := by
  refine (exec_each_invariant (fun _ m => NullsKept n k s m ∧ Legible m) ?_
    ⟨.refl n k s, legible⟩ ran).1
  intro l rest mid after _ before dropped
  obtain ⟨kept, still⟩ := kept_dropEntry present before.2 dropped
  exact ⟨before.1.trans kept, still⟩

theorem exec_dropEntries_none (ran : (each labels (dropEntry n k none)).Exec .exact s (.ok u) s') : s' = s :=
  exec_each_invariant (fun _ m => m = s)
    (fun _ _ _ _ _ before dropped => (exec_ret.mp dropped).2.trans before) rfl ran

/-- Where the null value is entered for every label, the two loops do the same. -/
theorem Legible.exec_nullEntries (legible : Legible s) (present : old ≠ some .null)
    (held : ∀ l ∈ labels, NullHeld s n k l)
    (ran : (each labels (dropEntry n k old)).Exec .exact s (.ok ()) s')
    : (each labels (nullEntry n k old)).Exec .exact s (.ok ()) s' := by
  induction labels generalizing s with
  | nil => exact exec_each_nil.mpr (exec_each_nil.mp ran)
  | cons l rest ih =>
    obtain ⟨mid, dropped, more⟩ := exec_each_cons.mp ran
    obtain ⟨kept, still⟩ := kept_dropEntry present legible dropped
    have entered := still.putPropEntry_null (kept.held.mpr (held l (by simp)))
    refine exec_each_cons.mpr ⟨mid, exec_bind_ok.mpr ⟨(), mid, dropped, entered⟩, ?_⟩
    exact ih still (fun l' member => kept.held.mpr (held l' (by simp [member]))) more

/-- The loop of `SetProperty`, when it succeeds, leaves null entered for every label. -/
theorem Legible.nullHeld_nullEntries (legible : Legible s) (present : old ≠ some .null)
    (ran : (each labels (nullEntry n k old)).Exec .exact s (.ok ()) s')
    : ∀ l, l ∈ labels ∨ NullHeld s n k l → NullHeld s' n k l := by
  induction labels generalizing s with
  | nil =>
    obtain rfl := exec_each_nil.mp ran
    simp
  | cons l₀ rest ih =>
    obtain ⟨mid, first, more⟩ := exec_each_cons.mp ran
    obtain ⟨_, dropped, drop, enter⟩ := exec_bind_ok.mp first
    obtain ⟨kept, still⟩ := kept_dropEntry present legible drop
    have now := still.nullHeld_putPropEntry enter
    intro l before
    refine ih (legible_editEntry true l₀ k .null n _ _ _ still enter).1 more l ?_
    by_cases here : l = l₀
    · exact .inr (here ▸ now)
    · rcases before with member | held
      · exact .inl ((List.mem_cons.mp member).resolve_left here)
      · exact .inr ((kept.held.mpr held).putPropEntry enter here)

/-- The ID the property key has, or is given when it is new and the dictionary has room. -/
def keyFor (s : Store) (key : Str) : Option UInt32 :=
  match idOf s .key key with
  | some id => some id
  | none =>
    if counterAt s (.dict .key) + 1 ≤ 0xFFFFFFFF then some (counterAt s (.dict .key) + 1).toUInt32
    else none

variable {key : Str}

theorem keyFor_of_idOf {id : UInt32} (known : idOf s .key key = some id) : keyFor s key = some id := by
  rw [keyFor, known]

/-- An interned key is the one expected; only a new one changes the store, and then only the
dictionary.
-/
theorem exec_internKey {id : UInt32} {base : Store} (ran : (internKey key).Exec .exact s (.ok id) base)
    : keyFor s key = some id ∧ (idOf s .key key ≠ none → base = s)
      ∧ ∀ κ, ¬ DictKey κ → cell base κ = cell s κ := by
  have framed := (within_internDict .key key).framed ran
  rcases exec_internDict (d := .key) ran with ⟨known, rfl⟩ | ⟨fresh, room, rfl, _⟩
  · exact ⟨keyFor_of_idOf known, fun _ => rfl, fun _ _ => rfl⟩
  · have unknown : idOf s .key key = none := by rw [idOf, fresh, Option.map_none]
    refine ⟨by rw [keyFor, unknown]; exact if_pos room, fun known => absurd unknown known, ?_⟩
    exact fun κ other => framed.frame κ other

theorem Legible.exec_nextCounter (legible : Legible s) (c : Counter)
    : (nextCounter c.kind).Exec .exact s (.ok (counterAt s c + 1))
        (s.set (Key.counter c).bytes (uint64Bytes (counterAt s c + 1))) := by
  simp only [nextCounter, bind_eq, pure_eq, exec_lookup_bind, Key.counterKey_eq]
  rcases held : cell s (.counter c) with _ | b
  · rw [show s.get (Key.counter c).bytes = none from held]
    simp [counterAt, held]
  · obtain ⟨value, rfl⟩ := legible _ b held
    rw [show s.get (Key.counter c).bytes = some (uint64Bytes value) from held]
    simp [counterAt, held, decodeU64]

/-- Interning succeeds when there is an ID to give. -/
theorem Legible.exec_internKey (legible : Legible s) (ordered : Dictionary s .key) {id : UInt32}
    (given : keyFor s key = some id)
    : ∃ base, (internKey key).Exec .exact s (.ok id) base := by
  simp only [show internKey key = internDict Dict.key.fwdTag Dict.key.kind key from rfl, internDict,
    bind_eq, pure_eq, throw_eq, exec_lookup_bind, Key.forward_eq, Key.reverseKey_eq]
  rcases held : cell s (.forward .key key) with _ | b
  · have unknown : idOf s .key key = none := by rw [idOf, held, Option.map_none]
    rw [keyFor, unknown] at given
    obtain ⟨room, same⟩ := Option.ite_none_right_eq_some.mp given
    obtain rfl := Option.some.inj same
    rw [show s.get (Key.forward .key key).bytes = none from held]
    -- The counter moves, then both directions of the entry are written.
    set next := counterAt s (.dict .key) + 1
    let counted := s.set (Key.counter (.dict .key)).bytes (uint64Bytes next)
    let entered := (counted.set (Key.forward .key key).bytes (uint32Bytes next.toUInt32)).set
      (Key.reverse .key next.toUInt32).bytes key
    refine ⟨entered, exec_bind_ok.mpr ⟨next, counted, legible.exec_nextCounter (.dict .key), ?_⟩⟩
    rw [if_neg (UInt64.not_lt.mpr room)]
    simp only [exec_write_bind]
    exact exec_ret.mpr ⟨rfl, rfl⟩
  · obtain ⟨known, rfl, _⟩ := ordered.forward key b held
    have same : idOf s .key key = some known := by rw [idOf, held, Option.map_some, uint32OfBytes_uint32Bytes]
    obtain rfl : known = id := Option.some.inj ((keyFor_of_idOf same).symm.trans given)
    rw [show s.get (Key.forward .key key).bytes = some (uint32Bytes known) from held]
    refine ⟨s, ?_⟩
    simp

/-- A record and its recorded form have one encoding. -/
theorem encodeNode_recorded (r : NodeRecord) : encodeNode (recorded r) = encodeNode r := by
  have labels : (r.labels.insertionSort (· ≤ ·)).insertionSort (· ≤ ·) = r.labels.insertionSort (· ≤ ·) :=
    (List.pairwise_insertionSort (· ≤ ·) r.labels).insertionSort_eq
  simp only [encodeNode, recorded, labels, appendProps_recProps]

variable {r : NodeRecord}

/-- The stored bytes of a record are its encoding. -/
theorem Legible.encoded (legible : Legible s) (found : nodeAt s n = some r)
    : ∃ b, cell s (.node n) = some b ∧ encodeNode r = .ok b := by
  obtain ⟨r', b, _, _, held, encoded, rfl⟩ := legible.read found
  exact ⟨b, held, (encodeNode_recorded r').trans encoded⟩

/-- What can be recorded can be recorded without one of the properties. -/
theorem Settled.exec_without (settled : Settled r) (n : UInt64) (k : UInt32) (s : Store)
    : ∃ s', (putNodeRecord n ⟨r.labels, r.props.delete k⟩).Exec .exact s (.ok ()) s' := by
  have encodable : EncodableProps (r.props.delete k) := by
    intro k' v held
    rw [get_delete] at held
    split at held
    · cases held
    · exact settled.encodable k' v held
  have distinct : (⟨r.labels, r.props.delete k⟩ : NodeRecord).labels.Nodup := settled.distinct
  obtain ⟨b, encoded, _⟩ := decodeNode_encodeNode distinct encodable
  refine ⟨s.set (nodeKey n) b, ?_⟩
  simp only [putNodeRecord, encoded, bind_eq, ofExcept_ok_bind]
  exact exec_write.mpr rfl

/-- The keys of nodes, labels, property values and owners. -/
def GraphKey : Key → Prop
  | .node _ | .label _ _ | .prop _ _ _ _ | .unique _ _ _ => True
  | _ => False

/-- Setting the property to null succeeds, as removing it does, and leaves the same keys. -/
def NullRemoves (s : Store) (n : UInt64) (key : Str) : Prop :=
  ∃ s₁ s₂, (setProperty n key .null).run s = (.ok (), s₁) ∧ (removeProperty n key).run s = (.ok (), s₂)
    ∧ ∀ κ, GraphKey κ → cell s₁ κ = cell s₂ κ

/-- The key has or gets an ID, a new one that the record does not hold, and null is entered
already under every label of the node.
-/
def NullEntered (s : Store) (n : UInt64) (r : NodeRecord) (key : Str) : Prop :=
  ∃ k, keyFor s key = some k ∧ (idOf s .key key = none → r.props.get k = none)
    ∧ ∀ l ∈ r.labels, NullHeld s n k l

theorem exec_setProperty_null {k : UInt32} {base mid : Store} (found : nodeAt s n = some r)
    (interned : (internKey key).Exec .exact s (.ok k) base)
    (looped : (each r.labels (nullEntry n k (r.props.get k))).Exec .exact base (.ok ()) mid)
    (written : (putNodeRecord n ⟨r.labels, r.props.delete k⟩).Exec .exact mid (.ok ()) s')
    : (setProperty n key .null).Exec .exact s (.ok ()) s' := by
  simp only [setProperty, bind_eq]
  refine exec_bind_ok.mpr ⟨⟨r, n⟩, s, exec_getNode_of found, ?_⟩
  refine exec_bind_ok.mpr ⟨k, base, interned, exec_bind_ok.mpr ⟨(), mid, ?_, written⟩⟩
  convert looped using 3 with l
  cases r.props.get k <;> rfl

theorem exec_removeProperty_some {k : UInt32} {v : Val} {mid : Store} (found : nodeAt s n = some r)
    (ordered : Dictionary s .key) (known : idOf s .key key = some k) (had : r.props.get k = some v)
    (looped : (each r.labels (dropEntry n k (some v))).Exec .exact s (.ok ()) mid)
    (written : (putNodeRecord n ⟨r.labels, r.props.delete k⟩).Exec .exact mid (.ok ()) s')
    : (removeProperty n key).Exec .exact s (.ok ()) s' := by
  simp only [removeProperty, bind_eq, pure_eq]
  refine exec_bind_ok.mpr ⟨⟨r, n⟩, s, exec_getNode_of found, ?_⟩
  have looked := known ▸ run_lookupDict ordered key
  refine exec_bind_ok.mpr ⟨some k, s, exec_exact_iff.mpr looked, ?_⟩
  simp only [had]
  exact exec_bind_ok.mpr ⟨(), mid, looped, written⟩

theorem exec_removeProperty_none (found : nodeAt s n = some r) (ordered : Dictionary s .key)
    (absent : ∀ k, idOf s .key key = some k → r.props.get k = none)
    : (removeProperty n key).Exec .exact s (.ok ()) s := by
  simp only [removeProperty, bind_eq, pure_eq]
  refine exec_bind_ok.mpr ⟨⟨r, n⟩, s, exec_getNode_of found, ?_⟩
  refine exec_bind_ok.mpr ⟨_, s, exec_exact_iff.mpr (run_lookupDict ordered key), ?_⟩
  cases known : idOf s .key key with
  | none => exact exec_ret.mpr ⟨rfl, rfl⟩
  | some k =>
    simp only [absent k known]
    exact exec_ret.mpr ⟨rfl, rfl⟩

/-- Where null is entered already, setting to null leaves what removing leaves. -/
theorem NullEntered.removes (entered : NullEntered s n r key) (legible : Legible s)
    (ordered : Dictionary s .key) (found : nodeAt s n = some r)
    : NullRemoves s n key := by
  obtain ⟨k, given, fresh, held⟩ := entered
  have settled := legible.settled found
  have present : r.props.get k ≠ some .null := settled.normal.present k
  obtain ⟨base, interned⟩ := legible.exec_internKey ordered given
  obtain ⟨_, same, frame⟩ := exec_internKey interned
  have legible' : Legible base := (legible_internDict .key key _ _ _ legible interned).1
  have kept : NullsKept n k s base :=
    ⟨fun _ => frame _ id, fun _ => frame _ id, fun l κ null => frame κ (by
      rcases null with rfl | rfl <;> exact id)⟩
  obtain ⟨mid, dropped⟩ := legible'.exec_dropEntries n k present r.labels
  obtain ⟨s₁, written⟩ := settled.exec_without n k mid
  have looped := legible'.exec_nullEntries present (fun l member => kept.held.mpr (held l member)) dropped
  have set := exec_exact_iff.mp (exec_setProperty_null found interned looped written)
  cases had : r.props.get k with
  | some v =>
    -- The key is known, so both functions go through the same stores.
    have known : idOf s .key key ≠ none := fun unknown => by simp [fresh unknown] at had
    obtain ⟨k', id⟩ := Option.ne_none_iff_exists'.mp known
    obtain rfl : k' = k := Option.some.inj ((keyFor_of_idOf id).symm.trans given)
    obtain rfl := same known
    rw [had] at dropped
    have removed := exec_removeProperty_some found ordered id had dropped written
    exact ⟨s₁, s₁, set, exec_exact_iff.mp removed, fun _ _ => rfl⟩
  | none =>
    -- Nothing is removed, and the record is written as it is stored.
    rw [had] at dropped
    obtain rfl := exec_dropEntries_none dropped
    have removed := exec_removeProperty_none found ordered (fun k' known => by
      obtain rfl : k' = k := Option.some.inj ((keyFor_of_idOf known).symm.trans given)
      exact had)
    refine ⟨s₁, s, set, exec_exact_iff.mp removed, fun κ graph => ?_⟩
    have unchanged := (exec_putNodeRecord (settled.toRecordable.delete k) written).2.2
    by_cases here : κ = .node n
    · subst here
      obtain ⟨b, stored, encoded⟩ := legible.encoded found
      rw [r.props.delete_of_get_none had] at written
      simp only [putNodeRecord, encoded, bind_eq, ofExcept_ok_bind, exec_write] at written
      rw [written, stored, Key.nodeKey_eq, cell_set, if_pos rfl]
    · rw [unchanged κ here, frame κ (by cases κ <;> simp_all [GraphKey, DictKey])]

/-- The other way round: what `SetProperty` leaves entered was entered before, because removing
leaves the null keys alone.
-/
theorem NullRemoves.entered (removes : NullRemoves s n key) (legible : Legible s)
    (found : nodeAt s n = some r)
    : NullEntered s n r key := by
  obtain ⟨s₁, s₂, set, removed, same⟩ := removes
  have settled := legible.settled found
  have set := exec_exact_iff.mpr set
  have removed := exec_exact_iff.mpr removed
  have framed₁ := (within_setProperty n key .null).framed set
  have framed₂ := (within_removeProperty n key).framed removed
  obtain ⟨r₁, k, base, mid, found₁, interned, looped, _, written⟩ := exec_setProperty set
  obtain rfl : r = r₁ := Option.some.inj (found.symm.trans found₁)
  obtain ⟨given, _, _⟩ := exec_internKey interned
  have present : r.props.get k ≠ some .null := settled.normal.present k
  have legible' : Legible base := (legible_internDict .key key _ _ _ legible interned).1
  obtain ⟨stored, _, unchanged⟩ := exec_putNodeRecord (settled.toRecordable.delete k) written
  -- After setting, null is entered under every label.
  have looped : (each r.labels (nullEntry n k (r.props.get k))).Exec .exact base (.ok ()) mid := by
    convert looped using 3 with l
    cases r.props.get k <;> rfl
  have after (l : UInt32) (member : l ∈ r.labels) : NullHeld s₁ n k l :=
    (nullsKept_of_others unchanged).held.mpr
      (legible'.nullHeld_nullEntries present looped l (.inl member))
  have agree : NullsKept n k s₂ s₁ := by
    refine ⟨fun l => ?_, fun l => ?_, fun l κ null => same κ (by rcases null with rfl | rfl <;> trivial)⟩
    · rw [framed₁.frame (.index l k) (by simp [NodeOrDict, NodeKey, DictKey]), framed₂.frame (.index l k) id]
    · rw [framed₁.frame (.constraint l k) (by simp [NodeOrDict, NodeKey, DictKey]), framed₂.frame (.constraint l k) id]
  obtain ⟨r₂, found₂, outcome⟩ := exec_removeProperty removed
  obtain rfl : r = r₂ := Option.some.inj (found.symm.trans found₂)
  rcases outcome with ⟨rfl, _⟩ | ⟨k', old, mid', known, had, dropped, written'⟩
  · refine ⟨k, given, fun _ => ?_, fun l member => agree.held.mp (after l member)⟩
    have record : nodeAt s₁ n = nodeAt s₂ n := by simp only [nodeAt, same (.node n) trivial]
    have whole : recorded ⟨r.labels, r.props.delete k⟩ = r :=
      Option.some.inj (stored.symm.trans (record.trans found))
    rw [← whole, recorded, recProps, get_mapValues, get_delete, if_pos rfl,
      Option.map_none]
  · obtain rfl : k' = k := Option.some.inj ((keyFor_of_idOf known).symm.trans given)
    refine ⟨k', given, fun unknown => absurd (known.symm.trans unknown) (by simp), fun l member => ?_⟩
    have kept := kept_dropEntries (had ▸ present) legible dropped
    have unchanged' := (exec_putNodeRecord (settled.toRecordable.delete k') written').2.2
    have kept' := kept.trans (nullsKept_of_others unchanged')
    exact kept'.held.mp (agree.held.mp (after l member))

/-- Setting a property of a node to null is removing it exactly where null is entered already. -/
theorem nullRemoves_iff_nullEntered {allowed : Store → Op → Prop} {history : History}
    (reached : Reached allowed history s) {r : NodeRecord} (found : nodeAt s n = some r) (key : Str)
    : NullRemoves s n key ↔ NullEntered s n r key := by
  obtain ⟨tallied, legible⟩ := reached.legible
  exact ⟨fun removes => removes.entered legible found,
    fun entered => entered.removes legible (tallied.ordered .key) found⟩

/-- Witness: a key without an index under the label of the node. -/
theorem nullRemoves_founded
    : ∃ r, nodeAt founded 1 = some r ∧ NullEntered founded 1 r (lit "z")
      ∧ NullRemoves founded 1 (lit "z") := by
  obtain ⟨r, found⟩ : ∃ r, nodeAt founded 1 = some r := ⟨_, rfl⟩
  have entered : NullEntered founded 1 r (lit "z") := by
    refine ⟨2, rfl, fun _ => ?_, fun l member indexed => ?_⟩
    · obtain rfl := Option.some.inj found
      rfl
    · obtain rfl : l = 1 := by
        obtain rfl := Option.some.inj found
        exact List.mem_singleton.mp member
      exact absurd (show cell founded (.index 1 2) = none from rfl) indexed
  exact ⟨r, found, entered,
    (nullRemoves_iff_nullEntered (reached_founded guarded_founding) found (lit "z")).mpr entered⟩

/-- A second node of the constrained label, and null for the property of the first. -/
def crowding : Script :=
  [(.createNode [lit "A"] noProps, steady), (.setProperty 1 (lit "k") ⟨.null, rfl⟩, steady)]

/-- Under a constraint the second node cannot have its property set to null: the first owns it. -/
theorem not_nullRemoves_of_reached
    : ¬ ∀ history s n key, Reached (fun _ _ => True) history s → nodeAt s n ≠ none → NullRemoves s n key := by
  intro always
  have free (s : Store) (body : Script) : Guarded (fun _ _ => True) s body := by
    induction body generalizing s with
    | nil => trivial
    | cons step rest ih => exact ⟨trivial, fun _ mid _ => ih mid⟩
  have ran : (script crowding).run founded = (.ok [.node 2, .done], ((script crowding).run founded).2) := rfl
  have reached := (reached_founded (free _ _)).commit (free _ _) ran
  obtain ⟨s₁, _, set, _⟩ := always _ _ 2 (lit "k") reached (by decide)
  have refused : ((setProperty 2 (lit "k") .null).run ((script crowding).run founded).2).1.isOk = false := rfl
  rw [set] at refused
  cases refused

end Intreccio.Graph
