import Intreccio.Graph.Editing
import Intreccio.Graph.Naming

/-! The operations on one property of a node keep the laws of nodes.
Each operation is taken apart once, into the records it reads, the names it interns, its loop
over the entries and the record it writes; the laws then follow from the parts.
-/

namespace Intreccio.Graph

open Kv Kv.Program Words Codec Catalog OrderedMap

variable {rule : ScanRule Bytes Bytes} {cov : Coverage} {s s' : Store} {bears : Bearing}
  {n : UInt64}

theorem exec_getNode_iff {r : NodeRecord} {id : UInt64}
    : (getNode n).Exec rule s (.ok ⟨r, id⟩) s' ↔ nodeAt s n = some r ∧ id = n ∧ s' = s := by
  simp only [getNode, bind_eq, pure_eq, throw_eq, exec_lookup_bind, Key.nodeKey_eq, nodeAt, cell]
  cases s.get (Key.node n).bytes with
  | none => simp
  | some b =>
    simp only [exec_ofExcept_bind, exec_ret, Option.bind_some, Node.mk.injEq]
    cases decodeNode b with
    | error e => simp [Except.mapError, Except.toOption]
    | ok r' => simp [Except.mapError, Except.toOption, eq_comm]

theorem exec_getNode {id : UInt64} {node : Node} (ran : (getNode id).Exec rule s (.ok node) s')
    : nodeAt s id = some node.toNodeRecord ∧ s' = s := by
  obtain ⟨found, _, same⟩ := exec_getNode_iff.mp ran
  exact ⟨found, same⟩

theorem exec_getNode_of {r : NodeRecord} (found : nodeAt s n = some r)
    : (getNode n).Exec rule s (.ok ⟨r, n⟩) s :=
  exec_getNode_iff.mpr ⟨found, rfl, rfl⟩

theorem exec_getNode_bind {id : UInt64} {α : Type} {f : Node → Txn α} {a : α}
    (ran : ((getNode id).bind f).Exec rule s (.ok a) s')
    : ∃ node, nodeAt s id = some node.toNodeRecord ∧ (f node).Exec rule s (.ok a) s' := by
  obtain ⟨node, mid, got, ran⟩ := exec_bind_ok.mp ran
  obtain ⟨found, same⟩ := exec_getNode got
  subst mid
  exact ⟨node, found, ran⟩

variable {r : NodeRecord} {k : UInt32} {c : Scalar}

theorem carries_iff (found : nodeAt s n = some r) {l : UInt32}
    : Carries s n l k c ↔ l ∈ r.labels ∧ r.props.get k = some c.toVal := by
  simp [Carries, found]

variable {v : Val} {p : Props}

/-- A normal value is recorded as a scalar exactly when it is that scalar. -/
theorem recForm_eq_toVal (normal : normalize v = v) : recForm v = c.toVal ↔ v = c.toVal := by
  cases v with
  | goInt i => simp [normalize] at normal
  | list _ | map _ => cases c <;> simp [recForm, Scalar.toVal]
  | _ => simp [recForm]

theorem recProps_get_toVal (normal : NormalProps p)
    : (recProps p).get k = some c.toVal ↔ p.get k = some c.toVal := by
  cases held : p.get k with
  | none => simp [recProps, held]
  | some v => simp [recProps, held, recForm_eq_toVal (normal.normal k v held)]

theorem normalize_recForm (normal : normalize v = v) : normalize (recForm v) = recForm v := by
  cases v with
  | goInt i => simp [normalize] at normal
  | _ => rfl

theorem NormalProps.recProps (h : NormalProps p) : NormalProps (recProps p) where
  normal := by
    intro k v found
    simp only [Codec.recProps, get_mapValues, Option.map_eq_some_iff] at found
    obtain ⟨w, held, rfl⟩ := found
    exact normalize_recForm (h.normal k w held)
  present := by
    intro k
    exact fun found => h.present k ((recProps_get_toVal h (c := .null)).mp found)

/-- A record that can be written: its labels are distinct and its properties normal values
that Go can hold.
-/
structure Recordable (r : NodeRecord) : Prop where
  distinct : r.labels.Nodup
  valid : RepresentableProps r.props
  normal : NormalProps r.props

def recorded (r : NodeRecord) : NodeRecord :=
  ⟨r.labels.insertionSort (· ≤ ·), recProps r.props⟩

variable {u : Unit} {labels : List UInt32}

theorem exec_putNodeRecord (good : Recordable r) (ran : (putNodeRecord n r).Exec rule s (.ok u) s')
    : nodeAt s' n = some (recorded r) ∧ EncodableProps r.props
      ∧ ∀ κ, κ ≠ .node n → cell s' κ = cell s κ := by
  simp only [putNodeRecord, bind_eq, exec_ofExcept_bind, exec_write, Key.nodeKey_eq] at ran
  obtain ⟨b, encoded, rfl⟩ := ran
  have encodable := encodable_of_encodeNode good.valid encoded
  obtain ⟨b', encoded', decoded⟩ := decodeNode_encodeNode good.distinct encodable
  obtain rfl : b = b' := Except.ok.inj (encoded.symm.trans encoded')
  refine ⟨?_, encodable, fun κ other => by rw [cell_set, if_neg other]⟩
  simp [nodeAt, decoded, Except.toOption, recorded]

/-- With the label keys of its record a written node is aligned. -/
theorem NodeAligned.recorded (found : nodeAt s n = some (recorded r)) (good : Recordable r)
    (encodable : EncodableProps r.props) (labels : ∀ l, cell s (.label l n) ≠ none ↔ l ∈ r.labels)
    : NodeAligned s n := by
  refine ⟨fun b present => ?_, fun r' found' => ?_, fun r' found' => ?_, fun r' found' => ?_,
    fun l => ?_⟩
  · obtain ⟨b', held, decoded⟩ := decoded_iff.mp found
    exact ⟨_, Option.some.inj (held.symm.trans present) ▸ decoded⟩
  · obtain rfl := Option.some.inj (found.symm.trans found')
    exact (List.perm_insertionSort _ _).nodup_iff.mpr good.distinct
  · obtain rfl := Option.some.inj (found.symm.trans found')
    exact .recProps encodable
  · obtain rfl := Option.some.inj (found.symm.trans found')
    exact good.normal.recProps
  · rw [labels, found]
    simp [Graph.recorded]

theorem carries_recorded (found : nodeAt s n = some (recorded r)) (good : Recordable r) {l : UInt32}
    : Carries s n l k c ↔ l ∈ r.labels ∧ r.props.get k = some c.toVal := by
  rw [carries_iff found]
  simp [recorded, recProps_get_toVal good.normal]

/-- The keys an operation on one node may change. -/
def NodeOrCatalog (n : UInt64) (κ : Key) : Prop := NodeKey n κ ∨ CatalogKey κ

theorem DictKey.catalog (κ : Key) (inside : DictKey κ) : CatalogKey κ := by
  cases κ <;> simp_all [DictKey, CatalogKey]

theorem Framed.ofNode (changed : Framed (NodeKey n) s s') : Framed (NodeOrCatalog n) s s' :=
  changed.mono (fun _ => .inl)

theorem Framed.ofCatalog (changed : Catalogued s s') : Framed (NodeOrCatalog n) s s' :=
  changed.mono (fun _ => .inr)

theorem Framed.ofDict (changed : Framed DictKey s s') : Catalogued s s' :=
  changed.mono DictKey.catalog

theorem Framed.ofNodeDict (changed : Framed (fun κ => NodeKey n κ ∨ DictKey κ) s s') : Framed (NodeOrCatalog n) s s' :=
  changed.mono (fun κ => Or.imp_right (DictKey.catalog κ))

/-- Editing one node keeps the laws if the node ends aligned and the indexes end with the
values of its record.
-/
theorem NodeLaws.edit (laws : NodeLaws cov s) (framed : Framed (NodeOrCatalog n) s s')
    (entered : Entered cov s' bears) (aligned : NodeAligned s' n)
    (mine : ∀ l k c, cov.covers c → (bears n l k c ↔ Carries s' n l k c))
    (theirs : ∀ m l k c, m ≠ n → (bears m l k c ↔ Carries s m l k c))
    : NodeLaws cov s' := by
  have node {m : UInt64} (other : m ≠ n) : cell s' (.node m) = cell s (.node m) :=
    framed.frame _ (by simp [NodeOrCatalog, NodeKey, CatalogKey, other])
  have label {m : UInt64} (other : m ≠ n) (l : UInt32) : cell s' (.label l m) = cell s (.label l m) :=
    framed.frame _ (by simp [NodeOrCatalog, NodeKey, CatalogKey, other])
  refine ⟨framed.keyed laws.keyed, fun m => ?_, ?_⟩
  · by_cases same : m = n
    · exact same ▸ aligned
    · exact (laws.aligned m).congr (node same) (label same)
  · refine entered.congr (fun _ _ _ _ => rfl) (fun m l k c covered => ?_)
    by_cases same : m = n
    · subst same
      exact (mine l k c covered).symm
    · rw [theirs m l k c same]
      exact Carries.congr (node same)

/-- The record is written last, when the indexes have its values already. -/
theorem NodeLaws.record {mid : Store} (laws : NodeLaws cov s) (framed : Framed (NodeOrCatalog n) s s')
    (good : Recordable r) (entered : Entered cov mid bears)
    (written : (putNodeRecord n r).Exec rule mid (.ok u) s')
    (labels : ∀ l, cell mid (.label l n) ≠ none ↔ l ∈ r.labels)
    (mine : ∀ l k c, cov.covers c → (bears n l k c ↔ l ∈ r.labels ∧ r.props.get k = some c.toVal))
    (theirs : ∀ m l k c, m ≠ n → (bears m l k c ↔ Carries s m l k c))
    : NodeLaws cov s' ∧ nodeAt s' n = some (recorded r) := by
  obtain ⟨stored, encodable, unchanged⟩ := exec_putNodeRecord good written
  refine ⟨laws.edit framed (entered.congr (fun l k κ inside => unchanged κ ?_) (fun _ _ _ _ _ => Iff.rfl))
    (.recorded stored good encodable fun l => ?_) (fun l k c covered => ?_) theirs, stored⟩
  · rintro rfl
    cases inside
  · rw [unchanged _ (by simp), labels]
  · rw [mine l k c covered, carries_recorded stored good]

theorem NodeAligned.label_iff (aligned : NodeAligned s n) (found : nodeAt s n = some r) (l : UInt32)
    : cell s (.label l n) ≠ none ↔ l ∈ r.labels := by
  simp [aligned.labels, found]

/-- An operation on one node keeps the whole store consistent if the node stays, or if no
edge joins it.
-/
theorem Consistent.edit (consistent : Consistent cov s) (laws : NodeLaws cov s')
    (framed : Framed (NodeOrCatalog n) s s')
    (stays : cell s' (.node n) ≠ none ∨ ∀ e r, edgeAt s e = some r → r.src ≠ n ∧ r.dst ≠ n)
    : Consistent cov s' := by
  have edge (e : UInt64) (κ : Key) (inside : OfEdge e κ) : cell s' κ = cell s κ :=
    framed.frame κ (by cases κ <;> simp_all [OfEdge, NodeOrCatalog, NodeKey, CatalogKey])
  have registry (t k : UInt32) : cell s' (.relIndex t k) = cell s (.relIndex t k) :=
    framed.frame _ (by simp [NodeOrCatalog, NodeKey, CatalogKey])
  have node {m : UInt64} (other : m ≠ n) : cell s' (.node m) = cell s (.node m) :=
    framed.frame _ (by simp [NodeOrCatalog, NodeKey, CatalogKey, other])
  refine ⟨laws, fun e => ?_⟩
  rcases stays with present | alone
  · refine (consistent.edges e).congr (edge e) registry (fun m before => ?_)
    by_cases same : m = n
    · exact same ▸ present
    · rwa [node same]
  · -- The ends of the edge are other nodes, which stay.
    have record := edgeAt_congr (edge e (.edge e) rfl)
    have aligned := consistent.edges e
    refine ⟨fun b present => ?_, fun r found => ?_, fun r found => ?_, fun src t dst => ?_,
      fun dst t src => ?_, fun t k c => ?_⟩
    · exact aligned.readable b ((edge e (.edge e) rfl).symm.trans present)
    · exact aligned.storable r (record.symm.trans found)
    · rw [record] at found
      obtain ⟨source, target⟩ := alone e r found
      rw [node source, node target]
      exact aligned.ends r found
    · rw [edge e (.out src t dst e) rfl, record]
      exact aligned.outs src t dst
    · rw [edge e (.inn dst t src e) rfl, record]
      exact aligned.ins dst t src
    · rw [edge e (.relProp t k c e) rfl, record, RelIndexed, registry]
      exact aligned.rels t k c

theorem Framed.nodeAt {m : UInt64} (changed : Catalogued s s') : Graph.nodeAt s' m = Graph.nodeAt s m :=
  nodeAt_congr (changed.frame _ id)

/-- Under a key a node bears at most the value its record has there. -/
theorem only_of_record (found : Graph.nodeAt s n = some r) (held : r.props.get k = some v)
    (l : UInt32)
    : Only (Carries s) n l k v := by
  intro c borne
  obtain ⟨_, value⟩ := (carries_iff found).mp borne
  exact Option.some.inj (value.symm.trans held)

theorem normalize_normalize (v : Val) : normalize (normalize v) = normalize v := by
  cases v <;> rfl

theorem representable_normalize (h : representable v = true) : representable (normalize v) = true := by
  cases v <;> exact h

theorem storableProps_representable (h : StorableProps p) : RepresentableProps p :=
  fun k v found => representable_of_encodable v (h.encodable k v found)

theorem NodeAligned.recordable (aligned : NodeAligned s n) (found : nodeAt s n = some r) : Recordable r :=
  ⟨aligned.distinct r found, storableProps_representable (aligned.storable r found),
    aligned.normal r found⟩

/-- The values are normal, not null, and Go can hold them. -/
def Solid (p : Props) : Prop := ∀ k v, p.get k = some v
  → representable v = true ∧ normalize v = v ∧ v ≠ .null

theorem Solid.recordable (solid : Solid p) (distinct : labels.Nodup) : Recordable ⟨labels, p⟩ :=
  ⟨distinct, fun k v held => (solid k v held).1, fun k v held => (solid k v held).2.1,
    fun k held => (solid k _ held).2.2 rfl⟩

theorem Recordable.solid (good : Recordable r) : Solid r.props := by
  intro k v held
  refine ⟨good.valid k v held, good.normal.normal k v held, ?_⟩
  rintro rfl
  exact good.normal.present k held

/-- One new entry over solid properties; a null removes the old one. -/
theorem Solid.update (solid : Solid p) (k : UInt32) (given : representable v = true ∧ normalize v = v)
    : Solid (if isNull v then p.delete k else p.set k v) := by
  intro k' w held
  cases null : isNull v with
  | true =>
    rw [null, if_pos rfl, get_delete] at held
    split at held
    · cases held
    · exact solid k' w held
  | false =>
    rw [null, if_neg Bool.false_ne_true, get_set] at held
    split at held
    · obtain rfl := Option.some.inj held
      refine ⟨given.1, given.2, fun same => ?_⟩
      rw [same] at null
      cases null
    · exact solid k' w held

theorem Recordable.update (good : Recordable r) (k : UInt32) (given : representable v = true ∧ normalize v = v)
    : Recordable ⟨r.labels, if isNull v then r.props.delete k else r.props.set k v⟩ :=
  (good.solid.update k given).recordable good.distinct

theorem Recordable.delete (good : Recordable r) (k : UInt32) : Recordable ⟨r.labels, r.props.delete k⟩ :=
  good.update (v := .null) k ⟨rfl, rfl⟩

/-- The loop of `SetProperty`: on each label the old entry is replaced by the new one. -/
theorem Entered.replace {keyID : UInt32} {old : Option Val} {new : Val}
    (distinct : labels.Nodup) (only : ∀ l ∈ labels, ∀ c, bears n l keyID c → old = some c.toVal)
    (entered : Entered cov s bears)
    (ran : (each labels (fun l => match old with | some v => (delPropEntry l keyID v n).bind (fun _ => putPropEntry l keyID new n) | none => putPropEntry l keyID new n)).Exec rule s (.ok u) s')
    : Entered cov s' (fun m l k c =>
        if m = n ∧ l ∈ labels ∧ k = keyID then c.toVal = new else bears m l k c) := by
  induction labels generalizing s bears with
  | nil =>
    rw [exec_each_nil] at ran
    subst ran
    exact entered.congr (fun _ _ _ _ => rfl) (fun m l k c _ => by simp)
  | cons a rest ih =>
    obtain ⟨fresh, restDistinct⟩ := List.nodup_cons.mp distinct
    obtain ⟨mid, first, more⟩ := exec_each_cons.mp ran
    have here := only a (by simp)
    have moved : Entered cov mid (fun m l k c =>
        if m = n ∧ l = a ∧ k = keyID then c.toVal = new else bears m l k c) := by
      cases old with
      | none =>
        refine (entered.put first).congr (fun _ _ _ _ => rfl) (fun m l k c _ => ?_)
        simp only [Bearing.put]
        split
        · rename_i same
          obtain ⟨rfl, rfl, rfl⟩ := same
          simpa using fun borne => absurd (here c borne) (by simp)
        · rename_i away
          tauto
      | some v =>
        obtain ⟨_, between, removed, put⟩ := exec_bind_ok.mp first
        have cleared := entered.del (fun c borne => (Option.some.inj (here c borne)).symm) removed
        refine (cleared.put put).congr (fun _ _ _ _ => rfl) (fun m l k c _ => ?_)
        simp only [Bearing.put, Bearing.del]
        split
        · rename_i same
          obtain ⟨rfl, rfl, rfl⟩ := same
          simpa using fun borne differs => absurd (Option.some.inj (here c borne)).symm differs
        · rename_i away
          tauto
    have later : ∀ l ∈ rest, ∀ c, (if n = n ∧ l = a ∧ keyID = keyID then c.toVal = new
        else bears n l keyID c) → old = some c.toVal := by
      intro l member c borne
      have other : l ≠ a := fun same => fresh (same ▸ member)
      rw [if_neg (fun both => other both.2.1)] at borne
      exact only l (by simp [member]) c borne
    refine (ih restDistinct later moved more).congr (fun _ _ _ _ => rfl) (fun m l k c _ => ?_)
    by_cases there : l = a
    · subst there
      simp [fresh]
    · simp [there]

variable {key : Str} {value : Val}

theorem exec_setProperty (ran : (setProperty n key value).Exec rule s (.ok u) s')
    : ∃ r keyID base mid, nodeAt s n = some r ∧ (internKey key).Exec rule s (.ok keyID) base
      ∧ (each r.labels (fun l =>
          match r.props.get keyID with
          | some v => (delPropEntry l keyID v n).bind
              (fun _ => putPropEntry l keyID (normalize value) n)
          | none => putPropEntry l keyID (normalize value) n)).Exec rule base (.ok ()) mid
      ∧ Framed (AnyEntry n) base mid
      ∧ (putNodeRecord n ⟨r.labels, if isNull (normalize value) then r.props.delete keyID
          else r.props.set keyID (normalize value)⟩).Exec rule mid (.ok ()) s' := by
  simp only [setProperty, bind_eq] at ran
  obtain ⟨node, found, ran⟩ := exec_getNode_bind ran
  obtain ⟨keyID, base, interned, ran⟩ := exec_bind_ok.mp ran
  obtain ⟨_, mid, looped, written⟩ := exec_bind_ok.mp ran
  refine ⟨_, keyID, base, mid, found, interned, looped,
    Within.framed (Within.each (fun l _ => ?_)) looped, written⟩
  cases node.props.get keyID with
  | none => exact within_editAny true l keyID _ n
  | some v => exact .bind (within_editAny false l keyID v n) (fun _ => within_editAny true l keyID _ n)

/-- Setting a property keeps the laws of nodes and leaves the updated record; a null leaves an
entry behind, which only the laws that skip null can allow.
-/
theorem nodeLaws_setProperty (laws : NodeLaws cov s) (valid : representable value = true)
    (present : isNull (normalize value) = false ∨ cov = .present)
    (ran : (setProperty n key value).Exec rule s (.ok u) s')
    : NodeLaws cov s'
      ∧ ∃ r keyID base, nodeAt s n = some r ∧ (internKey key).Exec rule s (.ok keyID) base
        ∧ Framed (NodeKey n) base s'
        ∧ nodeAt s' n = some (recorded ⟨r.labels, if isNull (normalize value)
            then r.props.delete keyID else r.props.set keyID (normalize value)⟩) := by
  have framed := (within_setProperty n key value).framed ran
  obtain ⟨r, keyID, base, mid, found, interned, looped, kept, written⟩ := exec_setProperty ran
  have catalogued := ((within_internDict .key key).framed interned).ofDict
  have origin := catalogued.nodeLaws laws
  have record : nodeAt base n = some r := catalogued.nodeAt.trans found
  have good := (origin.aligned n).recordable record
  have edited := origin.entered.replace good.distinct
    (fun l _ c borne => ((carries_iff record).mp borne).2) looped
  have updated := good.update keyID ⟨representable_normalize valid, normalize_normalize value⟩
  refine (laws.record framed.ofNodeDict updated edited written
    (fun l => by rw [kept.frame _ id, (origin.aligned n).label_iff record]) (fun l k c covered => ?_)
    (fun m l k c other => ?_)).imp_right fun stored => ⟨r, keyID, base, found, interned,
      (kept.mono AnyEntry.nodeKey).trans ((within_putNodeRecord n _).framed written), stored⟩
  · simp only [true_and]
    by_cases here : l ∈ r.labels ∧ k = keyID
    · obtain ⟨member, rfl⟩ := here
      simp only [member, and_self, if_true, true_and]
      cases null : isNull (normalize value) with
      | false => simp [get_set, eq_comm]
      | true =>
        have skipped : cov = .present := present.resolve_left (by simp [null])
        subst skipped
        simp only [if_true, get_delete, reduceCtorEq, iff_false]
        intro equal
        refine covered (toVal_inj.mp ?_)
        rw [equal]
        cases normalized : normalize value <;> simp_all [isNull, Scalar.toVal]
    · rw [if_neg here, carries_iff record]
      refine and_congr_right (fun member => ?_)
      have other : k ≠ keyID := fun same => here ⟨member, same⟩
      split <;> simp [get_set, get_delete, other]
  · rw [if_neg (fun both => other both.1)]
    exact Carries.congr (catalogued.frame _ id)

theorem cell_of_nodeAt (found : nodeAt s n ≠ none) : cell s (.node n) ≠ none := by
  intro missing
  simp [nodeAt, missing] at found

theorem consistent_setProperty (consistent : Consistent cov s)
    (valid : representable value = true) (present : isNull (normalize value) = false ∨ cov = .present)
    (ran : (setProperty n key value).Exec rule s (.ok u) s')
    : Consistent cov s' := by
  obtain ⟨laws, _, _, _, _, _, _, stored⟩ :=
    nodeLaws_setProperty consistent.nodes valid present ran
  exact consistent.edit laws ((within_setProperty n key value).framed ran).ofNodeDict
    (.inl (cell_of_nodeAt (by simp [stored])))

theorem Entered.removeKey (only : ∀ l ∈ labels, Only bears n l k v)
    (entered : Entered cov s bears)
    (ran : (each labels (fun l => delPropEntry l k v n)).Exec rule s (.ok u) s')
    : Entered cov s' (fun m l k' c =>
        bears m l k' c ∧ ¬ (m = n ∧ l ∈ labels ∧ k' = k ∧ c.toVal = v)) := by
  refine (entered.loop (n := n) false (fun a l k' c => l = a ∧ k' = k ∧ c.toVal = v) ?_ ran).congr
    (fun _ _ _ _ => rfl) (fun m l k' c _ => by simp)
  intro a member fewer t t' less before step
  exact before.del (fun c borne => only a member c (less rfl _ _ _ _ borne)) step

/-- The parts of `RemoveProperty`: nothing to do, or the entries and the record change. -/
theorem exec_removeProperty (ran : (removeProperty n key).Exec rule s (.ok u) s')
    : ∃ r, nodeAt s n = some r
      ∧ ((s' = s ∧ ∀ keyID, idOf s .key key = some keyID → r.props.get keyID = none)
        ∨ ∃ keyID old mid, idOf s .key key = some keyID ∧ r.props.get keyID = some old
          ∧ (each r.labels (fun l => delPropEntry l keyID old n)).Exec rule s (.ok ()) mid
          ∧ (putNodeRecord n ⟨r.labels, r.props.delete keyID⟩).Exec rule mid (.ok ()) s') := by
  simp only [removeProperty, bind_eq, pure_eq] at ran
  obtain ⟨node, found, ran⟩ := exec_getNode_bind ran
  refine ⟨_, found, ?_⟩
  obtain ⟨known, mid, looked, ran⟩ := exec_bind_ok.mp ran
  obtain ⟨answer, same⟩ := exec_lookupDict (d := .key) looked
  subst mid
  cases known with
  | none => exact .inl ⟨(exec_ret.mp ran).2, fun keyID known =>
    absurd (answer.trans known) (by simp)⟩
  | some keyID =>
    cases had : node.props.get keyID with
    | none =>
      simp only [had] at ran
      refine .inl ⟨(exec_ret.mp ran).2, fun other known => ?_⟩
      obtain rfl : keyID = other := Option.some.inj (answer.trans known)
      exact had
    | some old =>
      simp only [had] at ran
      obtain ⟨_, mid, looped, written⟩ := exec_bind_ok.mp ran
      exact .inr ⟨keyID, old, mid, answer.symm, had, looped, written⟩

theorem nodeLaws_removeProperty (laws : NodeLaws cov s)
    (ran : (removeProperty n key).Exec rule s (.ok u) s')
    : NodeLaws cov s'
      ∧ ∃ r, nodeAt s n = some r
        ∧ ((s' = s ∧ ∀ keyID, idOf s .key key = some keyID → r.props.get keyID = none)
          ∨ ∃ keyID, idOf s .key key = some keyID
            ∧ nodeAt s' n = some (recorded ⟨r.labels, r.props.delete keyID⟩)) := by
  have framed := (within_removeProperty n key).framed ran
  obtain ⟨r, found, ⟨same, absent⟩ | ⟨keyID, old, mid, known, had, looped, written⟩⟩ :=
    exec_removeProperty ran
  · exact ⟨same ▸ laws, r, found, .inl ⟨same, absent⟩⟩
  · have good := (laws.aligned n).recordable found
    have edited := laws.entered.removeKey (fun l _ => only_of_record found had l) looped
    have kept : Framed (AnyEntry n) s mid :=
      Within.framed (Within.each (fun l _ => within_editAny false l keyID old n)) looped
    refine (laws.record framed.ofNode (good.delete keyID) edited written
      (fun l => by rw [kept.frame _ id, (laws.aligned n).label_iff found]) (fun l k c _ => ?_)
      (fun m l k c other => by simp [other])).imp_right fun stored => ⟨r, found, .inr ⟨keyID, known, stored⟩⟩
    rw [carries_iff found, get_delete]
    by_cases here : k = keyID
    · subst here
      simp only [had, Option.some.injEq, true_and, if_true, reduceCtorEq, and_false, iff_false]
      rintro ⟨⟨member, rfl⟩, kept⟩
      exact kept ⟨member, rfl⟩
    · simp [here]

theorem consistent_removeProperty (consistent : Consistent cov s)
    (ran : (removeProperty n key).Exec rule s (.ok u) s')
    : Consistent cov s' := by
  obtain ⟨laws, r, found, ⟨same, _⟩ | ⟨_, _, stored⟩⟩ := nodeLaws_removeProperty consistent.nodes ran
  · exact same ▸ consistent
  · exact consistent.edit laws ((within_removeProperty n key).framed ran).ofNode
      (.inl (cell_of_nodeAt (by simp [stored])))

end Intreccio.Graph
