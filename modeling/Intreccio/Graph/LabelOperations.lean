import Intreccio.Graph.NodeOperations

/-! The operations that add and remove labels, and with them whole rows of entries, keep the
laws: creation and deletion of a node, `AddLabels` and `RemoveLabels`.
-/

namespace Intreccio.Graph

open Kv Kv.Program Words Codec Catalog List

variable {rule : ScanRule Bytes Bytes} {cov : Coverage} {s s' : Store} {bears : Bearing}
  {n : UInt64}

variable {o : MapOrder} {r : NodeRecord} {u : Unit}

theorem exists_row {labels : List UInt32} {l : UInt32} {Q : Prop}
    : (∃ e ∈ labels.zipIdx, l = e.1 ∧ Q) ↔ l ∈ labels ∧ Q := by
  conv_rhs => rw [← zipIdx_map_fst 0 labels, mem_map]
  constructor
  · rintro ⟨e, listed, rfl, held⟩
    exact ⟨⟨e, listed, rfl⟩, held⟩
  · rintro ⟨⟨e, listed, rfl⟩, held⟩
    exact ⟨e, listed, rfl, held⟩

theorem exists_property {p : Props} {k : UInt32} {v : Val} {Q : Prop}
    : (∃ e ∈ o.range p.entries, Q ∧ k = e.1 ∧ v = e.2) ↔ Q ∧ p.get k = some v := by
  rw [OrderedMap.get_eq_some_iff]
  constructor
  · rintro ⟨⟨k', v⟩, member, held, rfl, rfl⟩
    exact ⟨held, MapOrder.mem_range.mp member⟩
  · rintro ⟨held, member⟩
    exact ⟨(k, v), MapOrder.mem_range.mpr member, held, rfl, rfl⟩

/-- The rows of a node are entered, or taken out. -/
theorem Entered.editNodeIndexes (on : Bool) (entered : Entered cov s bears)
    (only : on = false → ∀ l ∈ r.labels, ∀ k v, r.props.get k = some v → Only bears n l k v)
    (ran : (editNodeIndexes on o n r).Exec rule s (.ok u) s')
    : Entered cov s' (fun m l k c =>
        Edits on (bears m l k c) (m = n ∧ l ∈ r.labels ∧ r.props.get k = some c.toVal)) := by
  rw [editNodeIndexes_eq] at ran
  refine (entered.loop (n := n) on
    (fun e l k c => l = e.1 ∧ r.props.get k = some c.toVal) ?_ ran).congr
    (fun _ _ _ _ => rfl) (fun m l k c _ => by rw [exists_row])
  rintro ⟨a, i⟩ listed now t t' less before step
  obtain ⟨_, mid, marking, step⟩ := exec_bind_ok.mp step
  obtain rfl := exec_mark.mp marking
  have labelled : Entered cov (marked on t (.label a n)) now :=
    before.congr (fun l k κ inside => by
      rw [cell_marked, if_neg (by rintro rfl; exact inside)])
      (fun _ _ _ _ _ => Iff.rfl)
  refine (labelled.loop (n := n) on (fun e l k c => l = a ∧ k = e.1 ∧ c.toVal = e.2) ?_
    step).congr (fun _ _ _ _ => rfl) (fun m l k c _ => by rw [exists_property])
  rintro ⟨k, v⟩ member later t t' lesser before edit
  have named := (exists_row.mp ⟨_, listed, rfl, trivial⟩).1
  have held := (exists_property.mp ⟨_, member, trivial, rfl, rfl⟩).2
  exact before.edit on (fun off c borne =>
    only off a named k v held c (less off _ _ _ _ (lesser off _ _ _ _ borne))) edit

theorem labels_editNodeIndexes (on : Bool) (ran : (editNodeIndexes on o n r).Exec rule s (.ok u) s') (l : UInt32)
    : cell s' (.label l n) ≠ none ↔ Edits on (cell s (.label l n) ≠ none) (l ∈ r.labels) := by
  rw [← zipIdx_map_fst 0 r.labels]
  rw [editNodeIndexes_eq] at ran
  revert ran
  generalize r.labels.zipIdx = rows
  intro ran
  induction rows generalizing s with
  | nil =>
    rw [exec_each_nil] at ran
    cases on <;> simp [ran]
  | cons row rest ih =>
    obtain ⟨mid, first, more⟩ := exec_each_cons.mp ran
    obtain ⟨_, after, marking, entries⟩ := exec_bind_ok.mp first
    obtain rfl := exec_mark.mp marking
    have kept := (Within.each (fun e _ => within_editAny on row.1 e.1 e.2 n)).framed entries
    rw [ih more, kept.frame _ id, cell_marked]
    by_cases here : l = row.1 <;> cases on <;> simp [here]

theorem node_putNodeIndexes (ran : (putNodeIndexes o n r).Exec rule s (.ok u) s') (m : UInt64)
    : cell s' (.node m) = cell s (.node m) := by
  refine (Within.framed (K := fun κ => AnyEntry n κ ∨ ∃ l, κ = .label l n)
    (Within.each (fun row _ => ?_)) ran).frame _ (by simp [AnyEntry])
  refine .bind ((within_write (κ := .label row.1 n)).mpr (.inr ⟨row.1, rfl⟩)) (fun _ => ?_)
  exact .each (fun e _ => (within_editAny true row.1 e.1 e.2 n).mono (fun _ => .inl))

theorem isNull_normalize (v : Val) : isNull (normalize v) = isNull v := by
  cases v <;> rfl

/-- Every value of a property map is one a Go map can hold. -/
def ValidProps (props : OrderedMap Str Val) : Prop :=
  ∀ e ∈ props.entries, representable e.2 = true

variable {props : OrderedMap Str Val}

/-- Interned properties are normal values that Go can hold. -/
theorem props_internProps {p : Props} (valid : ValidProps props)
    (ran : (internProps o props).Exec rule s (.ok p) s')
    : RepresentableProps p ∧ NormalProps p := by
  obtain ⟨_, origin, _⟩ := interned_internEntries ran
  have all : ∀ k v, p.get k = some v
      → representable v = true ∧ normalize v = v ∧ isNull v = false := by
    intro k v held
    rcases origin k v held with before | ⟨e, member, kept, _, rfl⟩
    · simp at before
    · exact ⟨representable_normalize (valid e (MapOrder.mem_range.mp member)),
        normalize_normalize e.2, (isNull_normalize e.2).trans (by simpa using kept)⟩
  refine ⟨fun k v held => (all k v held).1, fun k v held => (all k v held).2.1, ?_⟩
  intro k held
  have notNull := (all k _ held).2.2
  cases notNull

variable {labels : List Str}

theorem exec_createNode {id : UInt64} (ran : (createNode o labels props).Exec rule s (.ok id) s')
    : ∃ labelIDs p s₁ s₂ s₃ s₄ o₁ o₂,
      (internLabels [] labels).Exec rule s (.ok labelIDs) s₁
      ∧ (internProps o₁ props).Exec rule s₁ (.ok p) s₂
      ∧ nextNodeID.Exec rule s₂ (.ok id) s₃
      ∧ (putNodeRecord id ⟨labelIDs, p⟩).Exec rule s₃ (.ok ()) s₄
      ∧ (putNodeIndexes o₂ id ⟨labelIDs, p⟩).Exec rule s₄ (.ok ()) s' := by
  simp only [createNode, bind_eq, pure_eq] at ran
  obtain ⟨labelIDs, s₁, interned, ran⟩ := exec_bind_ok.mp ran
  obtain ⟨p, s₂, properties, ran⟩ := exec_bind_ok.mp ran
  obtain ⟨id', s₃, counted, ran⟩ := exec_bind_ok.mp ran
  obtain ⟨_, s₄, written, ran⟩ := exec_bind_ok.mp ran
  obtain ⟨_, s₅, indexed, ran⟩ := exec_bind_ok.mp ran
  obtain ⟨rfl, rfl⟩ := exec_ret.mp ran
  exact ⟨labelIDs, p, s₁, s₂, s₃, s₄, _, _, interned, properties, counted, written, indexed⟩

theorem framed_nextCounter {c : Counter} {id : UInt64}
    (ran : (nextCounter c.kind).Exec rule s (.ok id) s')
    : Catalogued s s' :=
  ((within_nextCounter c).framed ran).mono (by rintro _ rfl; trivial)

theorem nodeLaws_createNode (laws : NodeLaws cov s) (valid : ValidProps props)
    (free : cell s (.node n) = none) (ran : (createNode o labels props).Exec rule s (.ok n) s')
    : NodeLaws cov s' ∧ Framed (NodeOrCatalog n) s s'
      ∧ ∃ labelIDs p s₁ s₂ o₁, (internLabels [] labels).Exec rule s (.ok labelIDs) s₁
        ∧ (internProps o₁ props).Exec rule s₁ (.ok p) s₂
        ∧ Framed (fun κ => NodeKey n κ ∨ κ = .counter .node) s₂ s'
        ∧ nodeAt s' n = some (recorded ⟨labelIDs, p⟩) := by
  obtain ⟨labelIDs, p, s₁, s₂, s₃, s₄, o₁, o₂, interned, properties, counted, written, indexed⟩ :=
    exec_createNode ran
  obtain ⟨named, distinct, _⟩ := interned_internLabels interned
  obtain ⟨keyed, _⟩ := interned_internEntries properties
  obtain ⟨representable, normal⟩ := props_internProps valid properties
  have catalogued : Catalogued s s₃ := (named.framed.ofDict.trans keyed.framed.ofDict).trans
    (framed_nextCounter (c := .node) counted)
  have origin := catalogued.nodeLaws laws
  have absent : nodeAt s₃ n = none := by
    simp [nodeAt, catalogued.frame (.node n) id, free]
  have good : Recordable ⟨labelIDs, p⟩ := ⟨distinct, representable, normal⟩
  obtain ⟨stored, encodable, unchanged⟩ := exec_putNodeRecord good written
  have recorded : nodeAt s' n = some (recorded ⟨labelIDs, p⟩) :=
    (nodeAt_congr (node_putNodeIndexes indexed n)).trans stored
  have edited : Entered cov s₄ (Carries s₃) := origin.entered.congr
    (fun l k κ inside => unchanged κ (by rintro rfl; cases inside)) (fun _ _ _ _ _ => Iff.rfl)
  have framed : Framed (NodeOrCatalog n) s s' := catalogued.ofCatalog.trans
    (((within_putNodeRecord n _).framed written).trans
      ((within_editNodeIndexes true o₂ n _).framed indexed)).ofNode
  have bare (l k : UInt32) (c : Scalar) : ¬ Carries s₃ n l k c := by simp [Carries, absent]
  refine ⟨laws.edit framed (edited.editNodeIndexes true (by simp) indexed)
    (.recorded recorded good encodable (fun l => ?_)) (fun l k c _ => ?_)
    (fun m l k c other => ?_), framed, labelIDs, p, s₁, s₂, o₁, interned, properties,
    (((within_nextCounter .node).framed counted).mono (fun _ => .inr)).trans
      ((((within_putNodeRecord n _).framed written).trans
        ((within_editNodeIndexes true o₂ n _).framed indexed)).mono (fun _ => .inl)), recorded⟩
  · rw [labels_editNodeIndexes true indexed, edits_true, unchanged _ (by simp), (origin.aligned n).labels, absent]
    simp
  · rw [carries_recorded recorded good]
    simp [bare]
  · simp only [edits_true, other, false_and, or_false]
    exact Carries.congr (catalogued.frame _ id)

theorem consistent_createNode (consistent : Consistent cov s) (valid : ValidProps props)
    (free : cell s (.node n) = none) (ran : (createNode o labels props).Exec rule s (.ok n) s')
    : Consistent cov s' := by
  obtain ⟨laws, framed, _, _, _, _, _, _, _, _, stored⟩ :=
    nodeLaws_createNode consistent.nodes valid free ran
  exact consistent.edit laws framed (.inl (cell_of_nodeAt (by simp [stored])))

/-- The parts of `AddLabels`: nothing is named, or nothing is new, or the node gets new rows. -/
theorem exec_addLabels (ran : (addLabels o n labels).Exec rule s (.ok u) s')
    : (labels = [] ∧ s' = s)
      ∨ ∃ r added base, labels ≠ [] ∧ nodeAt s n = some r
        ∧ (internLabels r.labels labels).Exec rule s (.ok added) base
        ∧ ((added = [] ∧ s' = base)
          ∨ ∃ mid, (putNodeIndexes o n ⟨added, r.props⟩).Exec rule base (.ok ()) mid
            ∧ (putNodeRecord n ⟨r.labels ++ added, r.props⟩).Exec rule mid (.ok ()) s') := by
  simp only [addLabels, bind_eq, pure_eq] at ran
  by_cases named : labels = []
  · subst named
    exact .inl ⟨rfl, (exec_ret.mp ran).2⟩
  rw [if_neg (by simpa using named)] at ran
  obtain ⟨node, found, ran⟩ := exec_getNode_bind ran
  obtain ⟨added, base, interned, ran⟩ := exec_bind_ok.mp ran
  refine .inr ⟨_, added, base, named, found, interned, ?_⟩
  split at ran
  · rename_i none'
    exact .inl ⟨List.isEmpty_iff.mp none', (exec_ret.mp ran).2⟩
  obtain ⟨_, mid, indexed, written⟩ := exec_bind_ok.mp ran
  exact .inr ⟨mid, indexed, written⟩

theorem nodeLaws_addLabels (laws : NodeLaws cov s) (ran : (addLabels o n labels).Exec rule s (.ok u) s')
    : NodeLaws cov s'
      ∧ ((labels = [] ∧ s' = s)
        ∨ ∃ r r' added base, labels ≠ [] ∧ nodeAt s n = some r
          ∧ (internLabels r.labels labels).Exec rule s (.ok added) base
          ∧ Framed (NodeKey n) base s' ∧ nodeAt s' n = some r'
          ∧ r'.labels.Perm (r.labels ++ added) ∧ r'.props = r.props) := by
  have framed := ((within_addLabels o n labels).framed ran).ofNodeDict
  rcases exec_addLabels ran with
    ⟨empty, same⟩ | ⟨r, added, base, given, found, interned, outcome⟩
  · exact ⟨same ▸ laws, .inl ⟨empty, same⟩⟩
  obtain ⟨named, distinct, _, fresh⟩ := interned_internLabels interned
  have catalogued := named.framed.ofDict
  have origin := catalogued.nodeLaws laws
  have record : nodeAt base n = some r := catalogued.nodeAt.trans found
  rcases outcome with ⟨rfl, rfl⟩ | ⟨mid, indexed, written⟩
  · exact ⟨origin, .inr ⟨r, r, [], s', given, found, interned, .refl _ s', record, by simp, rfl⟩⟩
  have old := (origin.aligned n).recordable record
  have good : Recordable ⟨r.labels ++ added, r.props⟩ :=
    ⟨nodup_append.mpr ⟨old.distinct, distinct,
      fun x before y after same => ((fresh y).mp after).1 (same ▸ before)⟩, old.valid, old.normal⟩
  refine (laws.record framed good (origin.entered.editNodeIndexes true (by simp) indexed) written (fun l => ?_)
    (fun l k c _ => ?_) (fun m l k c other => ?_)).imp_right fun stored => .inr ⟨r, _, added, base, given, found,
      interned, ((within_editNodeIndexes true o n _).framed indexed).trans ((within_putNodeRecord n _).framed written),
      stored, perm_insertionSort _ _, ((laws.aligned n).storable r found).settled⟩
  · rw [labels_editNodeIndexes true indexed, edits_true, (origin.aligned n).label_iff record, mem_append]
  · rw [carries_iff record]
    simp only [edits_true, mem_append]
    tauto
  · simp only [edits_true, other, false_and, or_false]
    exact Carries.congr (catalogued.frame _ id)

theorem consistent_addLabels (consistent : Consistent cov s)
    (ran : (addLabels o n labels).Exec rule s (.ok u) s')
    : Consistent cov s' := by
  obtain ⟨laws, ⟨_, same⟩ | ⟨_, _, _, _, _, _, _, _, stored, _⟩⟩ :=
    nodeLaws_addLabels consistent.nodes ran
  · exact same ▸ consistent
  · exact consistent.edit laws ((within_addLabels o n labels).framed ran).ofNodeDict
      (.inl (cell_of_nodeAt (by simp [stored])))

/-- The looked-up IDs are those of the named labels that have one. -/
theorem exec_lookupLabels {names : List Str} {ids : List UInt32}
    (ran : (lookupLabels names).Exec rule s (.ok ids) s')
    : s' = s ∧ ∀ id, id ∈ ids ↔ ∃ name ∈ names, idOf s .label name = some id := by
  induction names generalizing s s' ids with
  | nil =>
    obtain ⟨rfl, rfl⟩ := exec_ret.mp ran
    simp
  | cons name rest ih =>
    simp only [lookupLabels, bind_eq, pure_eq] at ran
    obtain ⟨found, mid, looked, ran⟩ := exec_bind_ok.mp ran
    obtain ⟨answer, same⟩ := exec_lookupDict (d := .label) looked
    subst mid
    obtain ⟨more, after, looped, done⟩ := exec_bind_ok.mp ran
    obtain ⟨same, members⟩ := ih looped
    subst same
    obtain ⟨rfl, rfl⟩ := exec_ret.mp done
    refine ⟨rfl, fun id => ?_⟩
    rw [mem_append, members, answer]
    simp [idOf]

/-- The parts of `RemoveLabels`: nothing is named, or nothing named is known, or the node
loses rows.
-/
theorem exec_removeLabels (ran : (removeLabels o n labels).Exec rule s (.ok u) s')
    : (labels = [] ∧ s' = s)
      ∨ ∃ r toRemove, labels ≠ [] ∧ nodeAt s n = some r
        ∧ (∀ id, id ∈ toRemove ↔ ∃ name ∈ labels, idOf s .label name = some id)
        ∧ ((toRemove = [] ∧ s' = s)
          ∨ ∃ mid, (delNodeIndexes o n ⟨r.labels.filter (· ∈ toRemove), r.props⟩).Exec rule s
              (.ok ()) mid
            ∧ (putNodeRecord n ⟨r.labels.filter (· ∉ toRemove), r.props⟩).Exec rule mid
              (.ok ()) s') := by
  simp only [removeLabels, bind_eq, pure_eq] at ran
  by_cases named : labels = []
  · subst named
    exact .inl ⟨rfl, (exec_ret.mp ran).2⟩
  rw [if_neg (by simpa using named)] at ran
  obtain ⟨node, found, ran⟩ := exec_getNode_bind ran
  obtain ⟨toRemove, mid, looked, ran⟩ := exec_bind_ok.mp ran
  obtain ⟨same, members⟩ := exec_lookupLabels looked
  subst mid
  refine .inr ⟨_, toRemove, named, found, members, ?_⟩
  split at ran
  · rename_i none'
    exact .inl ⟨List.isEmpty_iff.mp none', (exec_ret.mp ran).2⟩
  obtain ⟨_, mid, removed, written⟩ := exec_bind_ok.mp ran
  exact .inr ⟨mid, removed, written⟩

theorem nodeLaws_removeLabels (laws : NodeLaws cov s)
    (ran : (removeLabels o n labels).Exec rule s (.ok u) s')
    : NodeLaws cov s'
      ∧ ((labels = [] ∧ s' = s)
        ∨ ∃ (r r' : NodeRecord) (toRemove : List UInt32), labels ≠ [] ∧ nodeAt s n = some r
          ∧ (∀ id, id ∈ toRemove ↔ ∃ name ∈ labels, idOf s .label name = some id)
          ∧ nodeAt s' n = some r' ∧ r'.labels.Perm (r.labels.filter (· ∉ toRemove))
          ∧ r'.props = r.props) := by
  have framed := (within_removeLabels o n labels).framed ran
  rcases exec_removeLabels ran with
    ⟨empty, same⟩ | ⟨r, toRemove, given, found, members, ⟨rfl, rfl⟩ | ⟨mid, removed, written⟩⟩
  · exact ⟨same ▸ laws, .inl ⟨empty, same⟩⟩
  · exact ⟨laws, .inr ⟨r, r, [], given, found, members, found, by simp, rfl⟩⟩
  have old := (laws.aligned n).recordable found
  have good : Recordable ⟨r.labels.filter (· ∉ toRemove), r.props⟩ :=
    ⟨old.distinct.filter _, old.valid, old.normal⟩
  have cleared := laws.entered.editNodeIndexes (r := ⟨r.labels.filter (· ∈ toRemove), r.props⟩) false
    (fun _ l _ k v held => only_of_record found held l) removed
  refine (laws.record framed.ofNode good cleared written (fun l => ?_) (fun l k c _ => ?_)
    (fun m l k c other => by simp [other])).imp_right fun stored => .inr ⟨r, _, toRemove, given, found, members,
      stored, perm_insertionSort _ _, ((laws.aligned n).storable r found).settled⟩
  · rw [labels_editNodeIndexes false removed, edits_false, (laws.aligned n).label_iff found]
    simp only [mem_filter, decide_eq_true_eq]
    tauto
  · rw [carries_iff found]
    simp only [edits_false, mem_filter, decide_eq_true_eq, true_and]
    tauto

theorem consistent_removeLabels (consistent : Consistent cov s)
    (ran : (removeLabels o n labels).Exec rule s (.ok u) s')
    : Consistent cov s' := by
  obtain ⟨laws, ⟨_, same⟩ | ⟨_, _, _, _, _, _, stored, _⟩⟩ :=
    nodeLaws_removeLabels consistent.nodes ran
  · exact same ▸ consistent
  · exact consistent.edit laws ((within_removeLabels o n labels).framed ran).ofNode
      (.inl (cell_of_nodeAt (by simp [stored])))

/-- The parts of `DeleteNode`: the probes found no incident edge, the rows go, then the record. -/
theorem exec_deleteNode (ran : (deleteNode o n).Exec rule s (.ok u) s')
    : ∃ r mid, nodeAt s n = some r ∧ (hasIncidentEdges n).Exec rule s (.ok false) s
      ∧ (delNodeIndexes o n r).Exec rule s (.ok ()) mid
      ∧ s' = mid.delete (Key.node n).bytes := by
  simp only [deleteNode, bind_eq, throw_eq] at ran
  obtain ⟨node, found, ran⟩ := exec_getNode_bind ran
  obtain ⟨incident, mid, asked, ran⟩ := exec_bind_ok.mp ran
  obtain rfl : mid = s := by
    simp only [hasIncidentEdges, bind_eq, pure_eq, exec_bind_ok, exec_occupied] at asked
    obtain ⟨leaving, mid', ⟨_, rfl⟩, asked⟩ := asked
    split at asked
    · exact (exec_ret.mp asked).2
    · simp only [exec_bind_ok, exec_occupied] at asked
      obtain ⟨entering, mid', ⟨_, rfl⟩, asked⟩ := asked
      split at asked <;> exact (exec_ret.mp asked).2
  cases incident with
  | true =>
    simp only [if_true] at ran
    exact (exec_fail_bind.mp ran).elim
  | false =>
    simp only [Bool.false_eq_true, if_false] at ran
    obtain ⟨_, mid', removed, erased⟩ := exec_bind_ok.mp ran
    rw [exec_erase, Key.nodeKey_eq] at erased
    exact ⟨_, mid', found, asked, removed, erased⟩

/-- Deleting a node keeps the laws of nodes, whatever the probes for its edges said. -/
theorem nodeLaws_deleteNode (laws : NodeLaws cov s) (ran : (deleteNode o n).Exec rule s (.ok u) s')
    : NodeLaws cov s' := by
  have framed := (within_deleteNode o n).framed ran
  obtain ⟨r, mid, found, _, removed, rfl⟩ := exec_deleteNode ran
  have gone : nodeAt (mid.delete (Key.node n).bytes) n = none := by simp [nodeAt]
  have cleared := laws.entered.editNodeIndexes false
    (fun _ l _ k v held => only_of_record found held l) removed
  refine laws.edit framed.ofNode
    (cleared.congr (fun l k κ inside => by
      rw [cell_delete, if_neg (by rintro rfl; cases inside)]) (fun _ _ _ _ _ => Iff.rfl))
    ⟨by simp, by simp [gone], by simp [gone], by simp [gone], fun l => ?_⟩ (fun l k c _ => ?_)
    (fun m l k c other => by simp [other])
  · rw [cell_delete, if_neg (by simp), labels_editNodeIndexes false removed, edits_false, (laws.aligned n).labels,
      found, gone]
    simp
  · rw [carries_iff found]
    simp [Carries, gone]

/-- On the store itself, a node without incident edges is the end of no edge record. -/
theorem exec_hasIncidentEdges_false (aligned : ∀ e, EdgeAligned s e)
    (ran : (hasIncidentEdges n).Exec .exact s (.ok false) s')
    : ∀ e r, edgeAt s e = some r → r.src ≠ n ∧ r.dst ≠ n := by
  simp only [hasIncidentEdges, bind_eq, pure_eq] at ran
  obtain ⟨leaving, mid, asked, ran⟩ := exec_bind_ok.mp ran
  cases leaving with
  | true => simp at ran
  | false =>
    obtain ⟨noOut, same⟩ := exec_occupied_false asked
    subst mid
    simp only [Bool.false_eq_true, if_false] at ran
    obtain ⟨entering, mid, asked', ran⟩ := exec_bind_ok.mp ran
    cases entering with
    | true => simp at ran
    | false =>
      obtain ⟨noIn, _⟩ := exec_occupied_false asked'
      refine fun e r found => ⟨?_, ?_⟩
      · rintro rfl
        exact ((aligned e).outs r.src r.type r.dst).mpr ⟨r, found, rfl, rfl, rfl⟩
          (noOut _ (under_outPrefixAll.mpr ⟨_, _, _, rfl⟩))
      · rintro rfl
        exact ((aligned e).ins r.dst r.type r.src).mpr ⟨r, found, rfl, rfl, rfl⟩
          (noIn _ (under_inPrefixAll.mpr ⟨_, _, _, rfl⟩))

/-- Deleting a node on the store itself keeps it consistent. -/
theorem consistent_deleteNode (consistent : Consistent cov s)
    (ran : (deleteNode o n).Exec .exact s (.ok u) s')
    : Consistent cov s' := by
  obtain ⟨_, _, _, asked, _⟩ := exec_deleteNode ran
  exact consistent.edit (nodeLaws_deleteNode consistent.nodes ran)
    ((within_deleteNode o n).framed ran).ofNode
    (.inr (exec_hasIncidentEdges_false consistent.edges asked))

end Intreccio.Graph
