import Intreccio.Graph.PropertyMaps

/-! The operations on edges keep the laws: creation, deletion, and deletion of a node together
with its edges.
-/

namespace Intreccio.Graph

open Kv Kv.Program Words Codec Catalog

variable {rule : ScanRule Bytes Bytes} {cov : Coverage} {s s' : Store}

variable {id : UInt64}

theorem exec_getEdge_iff {r : EdgeRecord} {e : UInt64}
    : (getEdge id).Exec rule s (.ok ⟨r, e⟩) s' ↔ edgeAt s id = some r ∧ e = id ∧ s' = s := by
  simp only [getEdge, bind_eq, pure_eq, throw_eq, exec_lookup_bind, Key.edgeKey_eq, edgeAt, cell]
  cases s.get (Key.edge id).bytes with
  | none => simp
  | some b =>
    simp only [exec_ofExcept_bind, exec_ret, Option.bind_some, Edge.mk.injEq]
    cases decodeEdge b with
    | error _ => simp [Except.mapError, Except.toOption]
    | ok r' => simp [Except.mapError, Except.toOption, eq_comm]

theorem exec_getEdge {edge : Edge} (ran : (getEdge id).Exec rule s (.ok edge) s')
    : edgeAt s id = some edge.toEdgeRecord ∧ s' = s := by
  obtain ⟨found, _, same⟩ := exec_getEdge_iff.mp ran
  exact ⟨found, same⟩

/-- The index entries of an edge under one type. -/
def RelEntries (t : UInt32) (e : UInt64) : Key → Prop
  | .relProp t' _ _ e' => t' = t ∧ e' = e
  | _ => False

variable {e : UInt64}

theorem RelEntryKey.ofType {t k : UInt32} (κ : Key) (entry : RelEntryKey t k e κ) : RelEntries t e κ := by
  cases κ <;> simp_all [RelEntryKey, RelEntries]

variable {t : UInt32}

theorem RelEntries.ofEdge (κ : Key) (entry : RelEntries t e κ) : OfEdge e κ := by
  cases κ <;> simp_all [RelEntries, OfEdge]

theorem within_relEntries (on : Bool) (t : UInt32) (e : UInt64) (entries : List (UInt32 × Val))
    : Within (RelEntries t e) (each entries (fun entry => editRelEntry on t entry.1 entry.2 e)) :=
  Within.each (fun entry _ => (within_editRelEntry on t entry.1 entry.2 e).mono RelEntryKey.ofType)

variable {entries : List (UInt32 × Val)} {u : Unit}

/-- Afterwards the entries of the listed values are there, or none of them is. -/
theorem exec_relEntries (on : Bool)
    (ran : (each entries (fun entry => editRelEntry on t entry.1 entry.2 e)).Exec rule s (.ok u) s')
    (k : UInt32) (c : Scalar)
    : cell s' (.relProp t k c e) ≠ none
      ↔ (RelIndexed s t k ∧ (k, c.toVal) ∈ entries ∧ on = true)
        ∨ (¬ (RelIndexed s t k ∧ (k, c.toVal) ∈ entries) ∧ cell s (.relProp t k c e) ≠ none) := by
  induction entries generalizing s with
  | nil =>
    rw [exec_each_nil] at ran
    simp [ran]
  | cons entry rest ih =>
    obtain ⟨k₀, v₀⟩ := entry
    obtain ⟨mid, first, more⟩ := exec_each_cons.mp ran
    rw [ih more, List.mem_cons, Prod.mk.injEq]
    rcases exec_editRelEntry on first with ⟨nothing, rfl⟩ | ⟨c₀, scalar, indexed, rfl⟩
    · have idle (here : RelIndexed mid t k) : ¬ (k = k₀ ∧ c.toVal = v₀) := by
        rintro ⟨rfl, rfl⟩
        exact nothing.elim (by simp) here
      tauto
    · obtain rfl := Val.scalar?_eq_some.mp scalar
      by_cases here : k = k₀ ∧ c = c₀
      · obtain ⟨rfl, rfl⟩ := here
        have registered : cell s (.relIndex t k) ≠ none := indexed
        cases on <;> simp [RelIndexed, registered, em]
      · have other : ¬ (k = k₀ ∧ c.toVal = c₀.toVal) := by rwa [toVal_inj]
        simp [RelIndexed, other, here]

/-- The keys an operation on one edge may change. -/
def EdgeOrCatalog (e : UInt64) (κ : Key) : Prop := OfEdge e κ ∨ CatalogKey κ

theorem Framed.ofEdge (changed : Framed (OfEdge e) s s') : Framed (EdgeOrCatalog e) s s' :=
  changed.mono (fun _ => .inl)

theorem Framed.edgeCatalog (changed : Catalogued s s') : Framed (EdgeOrCatalog e) s s' :=
  changed.mono (fun _ => .inr)

theorem NodeLaws.changeEdge (laws : NodeLaws cov s) (framed : Framed (EdgeOrCatalog e) s s')
    : NodeLaws cov s' :=
  laws.congr (framed.keyed laws.keyed) (fun κ side => framed.frame κ (by
    cases κ <;> simp_all [NodeSide, EdgeOrCatalog, OfEdge, CatalogKey]))

/-- Changing the keys of one edge keeps a store consistent if that edge ends aligned. -/
theorem Consistent.changeEdge (consistent : Consistent cov s) (framed : Framed (EdgeOrCatalog e) s s')
    (aligned : EdgeAligned s' e)
    : Consistent cov s' := by
  refine ⟨consistent.nodes.changeEdge framed, fun e' => ?_⟩
  by_cases same : e' = e
  · exact same ▸ aligned
  · refine (consistent.edges e').congr (fun κ inside => framed.frame κ ?_)
      (fun t k => framed.frame _ (by simp [EdgeOrCatalog, OfEdge, CatalogKey]))
      (fun n present => ?_)
    · cases κ <;> simp_all [EdgeOrCatalog, OfEdge, CatalogKey]
    · rwa [framed.frame (.node n) (by simp [EdgeOrCatalog, OfEdge, CatalogKey])]

theorem exec_endpoint {what : String} (ran : (endpoint what id).Exec rule s (.ok u) s')
    : nodeAt s id ≠ none ∧ s' = s := by
  rcases exec_handle_ok.mp ran with direct | ⟨e, mid, _, recovered⟩
  · obtain ⟨node, found, done⟩ := exec_getNode_bind direct
    exact ⟨by simp [found], (exec_ret.mp done).2⟩
  · exact (exec_fail.mp recovered).elim

variable {o : MapOrder} {props : OrderedMap Str Val}

theorem exec_createEdge {typ : Str} {src dst id : UInt64}
    (ran : (createEdge o typ src dst props).Exec rule s (.ok id) s')
    : nodeAt s src ≠ none ∧ nodeAt s dst ≠ none
      ∧ ∃ (typeID : UInt32) (p : Props) (s₁ s₂ s₃ : Store) (b : Bytes) (o₁ o₂ : MapOrder),
        (internType typ).Exec rule s (.ok typeID) s₁
        ∧ (internProps o₁ props).Exec rule s₁ (.ok p) s₂
        ∧ nextEdgeID.Exec rule s₂ (.ok id) s₃
        ∧ encodeEdge ⟨typeID, src, dst, p⟩ = .ok b
        ∧ (each (o₂.range p.entries) (fun entry =>
            putRelPropEntry typeID entry.1 entry.2 id)).Exec rule
          (((s₃.set (Key.edge id).bytes b).set (Key.out src typeID dst id).bytes []).set
            (Key.inn dst typeID src id).bytes []) (.ok ()) s' := by
  simp only [createEdge, bind_eq, pure_eq] at ran
  obtain ⟨_, mid, checked, ran⟩ := exec_bind_ok.mp ran
  obtain ⟨source, same⟩ := exec_endpoint checked
  subst mid
  obtain ⟨_, mid, checked, ran⟩ := exec_bind_ok.mp ran
  obtain ⟨target, same⟩ := exec_endpoint checked
  subst mid
  obtain ⟨typeID, s₁, interned, ran⟩ := exec_bind_ok.mp ran
  obtain ⟨p, s₂, properties, ran⟩ := exec_bind_ok.mp ran
  obtain ⟨id', s₃, counted, ran⟩ := exec_bind_ok.mp ran
  simp only [exec_ofExcept_bind, exec_write_bind, Key.edgeKey_eq, Key.outKey_eq,
    Key.inKey_eq] at ran
  obtain ⟨b, encoded, ran⟩ := ran
  obtain ⟨_, s₄, entered, ran⟩ := exec_bind_ok.mp ran
  obtain ⟨rfl, rfl⟩ := exec_ret.mp ran
  exact ⟨source, target, typeID, p, s₁, s₂, s₃, b, _, _, interned, properties, counted, encoded,
    entered⟩

section

variable {src dst e : UInt64} {b : Bytes}
  (entered : (each entries (fun entry => putRelPropEntry t entry.1 entry.2 e)).Exec rule
    (((s.set (Key.edge e).bytes b).set (Key.out src t dst e).bytes []).set (Key.inn dst t src e).bytes []) (.ok u) s')

include entered

theorem framed_writeEdge : Framed (OfEdge e) s s' := by
  have own (t : Store) (κ : Key) (inside : OfEdge e κ) (v : Bytes)
      : Framed (OfEdge e) t (t.set κ.bytes v) := .set t inside v
  have linked := ((own s (.edge e) rfl b).trans (own _ (.out src t dst e) rfl [])).trans
    (own _ (.inn dst t src e) rfl [])
  exact linked.trans (((within_relEntries true t e _).framed entered).mono RelEntries.ofEdge)

theorem cell_createEdge {p : Props}
    (representable : RepresentableProps p) (encoded : encodeEdge ⟨t, src, dst, p⟩ = .ok b)
    : cell s' (.edge e) = some b ∧ decodeEdge b = .ok ⟨t, src, dst, recProps p⟩
      ∧ EncodableProps p := by
  have encodable := encodable_of_encodeEdge representable encoded
  have back : ∃ b', encodeEdge ⟨t, src, dst, p⟩ = .ok b'
      ∧ decodeEdge b' = .ok ⟨t, src, dst, recProps p⟩ := decodeEdge_encodeEdge encodable
  obtain ⟨b', encoded', decoded⟩ := back
  obtain rfl : b = b' := Except.ok.inj (encoded.symm.trans encoded')
  have indexed := (within_relEntries true t e _).framed entered
  exact ⟨by simp [indexed.frame (.edge e) (by simp [RelEntries])], decoded, encodable⟩

end

theorem framed_createEdge {typ : Str} {src dst e : UInt64}
    (ran : (createEdge o typ src dst props).Exec rule s (.ok e) s')
    : Framed (EdgeOrCatalog e) s s' := by
  obtain ⟨_, _, typeID, p, s₁, s₂, s₃, b, o₁, o₂, interned, properties, counted, _, entered⟩ :=
    exec_createEdge ran
  obtain ⟨named, _⟩ := interned_internDict (d := .type) interned
  obtain ⟨keyed, _⟩ := interned_internEntries properties
  have catalogued : Catalogued s s₃ := (named.framed.ofDict.trans keyed.framed.ofDict).trans
    (framed_nextCounter (c := .edge) counted)
  exact catalogued.edgeCatalog.trans (framed_writeEdge entered).ofEdge

theorem consistent_createEdge {typ : Str} {src dst id : UInt64} (consistent : Consistent cov s)
    (valid : ValidProps props) (free : cell s (.edge id) = none)
    (ran : (createEdge o typ src dst props).Exec rule s (.ok id) s')
    : Consistent cov s' := by
  have framed := framed_createEdge ran
  obtain ⟨source, target, typeID, p, s₁, s₂, s₃, b, o₁, o₂, interned, properties, counted, encoded,
    entered⟩ := exec_createEdge ran
  obtain ⟨named, _⟩ := interned_internDict (d := .type) interned
  obtain ⟨keyed, _⟩ := interned_internEntries properties
  obtain ⟨representable, normal⟩ := props_internProps valid properties
  have catalogued : Catalogued s s₃ := (named.framed.ofDict.trans keyed.framed.ofDict).trans
    (framed_nextCounter (c := .edge) counted)
  have origin := (catalogued.consistent consistent).edges id
  have missing : edgeAt s₃ id = none := by
    simp [edgeAt, catalogued.frame (.edge id) (fun impossible => impossible), free]
  have indexed := (within_relEntries true typeID id _).framed entered
  have entries := exec_relEntries true entered
  obtain ⟨written, decoded, encodable⟩ := cell_createEdge entered representable encoded
  have record : edgeAt s' id = some ⟨typeID, src, dst, recProps p⟩ := by
    simp [edgeAt, written, decoded, Except.toOption]
  have nodes (n : UInt64) : cell s' (.node n) = cell s (.node n) :=
    framed.frame _ (by simp [EdgeOrCatalog, OfEdge, CatalogKey])
  refine consistent.changeEdge framed ⟨fun b' present => ?_, fun r found => ?_, fun r found => ?_,
    fun src' t dst' => ?_, fun dst' t src' => ?_, fun t k c => ?_⟩
  · exact ⟨_, Option.some.inj (written.symm.trans present) ▸ decoded⟩
  · obtain rfl := Option.some.inj (record.symm.trans found)
    exact StorableProps.recProps encodable
  · obtain rfl := Option.some.inj (record.symm.trans found)
    rw [nodes, nodes]
    exact ⟨cell_of_nodeAt source, cell_of_nodeAt target⟩
  · have old := origin.outs src' t dst'
    rw [indexed.frame (.out src' t dst' id) (by simp [RelEntries]), record]
    simp only [missing, reduceCtorEq, false_and, exists_false, iff_false, not_not] at old
    simp [old, eq_comm]
  · have old := origin.ins dst' t src'
    rw [indexed.frame (.inn dst' t src' id) (by simp [RelEntries]), record]
    simp only [missing, reduceCtorEq, false_and, exists_false, iff_false, not_not] at old
    simp only [cell_set, Key.inn.injEq, old, reduceCtorEq, if_false, Option.some.injEq,
      exists_eq_left', and_true]
    by_cases same : dst' = dst ∧ t = typeID ∧ src' = src
    · simp [same]
    · rw [if_neg same]
      simpa using fun source type target => same ⟨target.symm, type.symm, source.symm⟩
  · have old := origin.rels t k c
    simp only [missing, reduceCtorEq, false_and, exists_false, and_false, iff_false,
      not_not] at old
    rw [record, RelIndexed, indexed.frame (.relIndex t k) (by simp [RelEntries])]
    by_cases same : t = typeID
    · subst same
      rw [entries]
      simp [old, RelIndexed, MapOrder.mem_range, ← OrderedMap.get_eq_some_iff,
        recProps_get_toVal normal]
    · rw [indexed.frame _ (by simp [RelEntries, same])]
      simp [old, Ne.symm same]

theorem exec_deleteEdge (ran : (deleteEdge o id).Exec rule s (.ok u) s')
    : ∃ r mid, edgeAt s id = some r
      ∧ (each (o.range r.props.entries) (fun entry =>
          delRelPropEntry r.type entry.1 entry.2 id)).Exec rule
        ((s.delete (Key.out r.src r.type r.dst id).bytes).delete
          (Key.inn r.dst r.type r.src id).bytes) (.ok ()) mid
      ∧ s' = mid.delete (Key.edge id).bytes := by
  simp only [deleteEdge, bind_eq] at ran
  obtain ⟨e, mid, got, ran⟩ := exec_bind_ok.mp ran
  obtain ⟨found, same⟩ := exec_getEdge got
  subst mid
  simp only [exec_erase_bind, Key.outKey_eq, Key.inKey_eq] at ran
  obtain ⟨_, mid, removed, erased⟩ := exec_bind_ok.mp ran
  rw [exec_erase, Key.edgeKey_eq] at erased
  exact ⟨_, mid, found, removed, erased⟩

theorem consistent_deleteEdge (consistent : Consistent cov s)
    (ran : (deleteEdge o id).Exec rule s (.ok u) s')
    : Consistent cov s' := by
  have framed := (within_deleteEdge o id).framed ran
  obtain ⟨e, mid, found, removed, rfl⟩ := exec_deleteEdge ran
  have aligned := consistent.edges id
  have moved := (within_relEntries false e.type id _).framed removed
  have entries := exec_relEntries false removed
  have gone : edgeAt (mid.delete (Key.edge id).bytes) id = none := by simp [edgeAt]
  refine consistent.changeEdge framed.ofEdge ⟨fun b' present => ?_, fun r found => ?_,
    fun r found => ?_, fun src t dst => ?_, fun dst t src => ?_, fun t k c => ?_⟩
  · simp at present
  · simp [gone] at found
  · simp [gone] at found
  · have old := aligned.outs src t dst
    rw [gone, cell_delete, if_neg (by simp), moved.frame (.out src t dst id) (by simp [RelEntries])]
    simp only [found, Option.some.injEq, exists_eq_left'] at old
    by_cases own : e.src = src ∧ e.type = t ∧ e.dst = dst
    · simp [← own.1, ← own.2.1, ← own.2.2]
    · simpa using fun _ => not_not.mp (mt old.mp own)
  · have old := aligned.ins dst t src
    rw [gone, cell_delete, if_neg (by simp), moved.frame (.inn dst t src id) (by simp [RelEntries])]
    simp only [found, Option.some.injEq, exists_eq_left'] at old
    by_cases own : e.src = src ∧ e.type = t ∧ e.dst = dst
    · simp [← own.1, ← own.2.1, ← own.2.2]
    · simpa using fun _ => not_not.mp (mt old.mp own)
  · have old := aligned.rels t k c
    rw [gone, cell_delete, if_neg (by simp)]
    simp only [found, Option.some.injEq, exists_eq_left'] at old
    by_cases same : t = e.type
    · subst same
      rw [entries]
      simp only [cell_delete, reduceCtorEq, if_false, RelIndexed, MapOrder.mem_range,
        ← OrderedMap.get_eq_some_iff] at old ⊢
      tauto
    · rw [moved.frame _ (by simp [RelEntries, same])]
      simpa using not_not.mp (mt old.mp (fun own => same own.2.1.symm))

/-- The parts of `DetachDeleteNode`: the listed edges go, then the node. -/
theorem exec_detachDeleteNode (ran : (detachDeleteNode o id).Exec rule s (.ok u) s')
    : ∃ (leaving entering : List EdgeRef) (mid : Store) (o₁ o₂ o₃ : MapOrder), nodeAt s id ≠ none
      ∧ (outEdges id 0).Exec rule s (.ok leaving) s ∧ (inEdges id 0).Exec rule s (.ok entering) s
      ∧ (each (o₁.range ((leaving ++ entering).map EdgeRef.id).dedup).zipIdx
          (fun e => deleteEdge (o₂.sub e.2) e.1)).Exec rule s (.ok ()) mid
      ∧ (deleteNode o₃ id).Exec rule mid (.ok u) s' := by
  simp only [detachDeleteNode, bind_eq] at ran
  obtain ⟨node, found, rest⟩ := exec_getNode_bind ran
  rw [exec_bind_ok] at rest
  obtain ⟨leaving, mid, out, rest⟩ := rest
  obtain rfl : mid = s := by
    simp only [outEdges, scan, bind_eq, exec_bind_ok, exec_entries, exec_ofExcept] at out
    obtain ⟨_, _, ⟨_, same⟩, _, same'⟩ := out
    exact same'.trans same
  rw [exec_bind_ok] at rest
  obtain ⟨entering, after, inc, rest⟩ := rest
  obtain rfl : after = mid := by
    simp only [inEdges, scan, bind_eq, exec_bind_ok, exec_entries, exec_ofExcept] at inc
    obtain ⟨_, _, ⟨_, same⟩, _, same'⟩ := inc
    exact same'.trans same
  rw [exec_bind_ok] at rest
  obtain ⟨_, mid, detached, deleted⟩ := rest
  exact ⟨leaving, entering, mid, _, _, _, by simp [found], out, inc, detached, deleted⟩

/-- Each edge is deleted from a consistent store, whichever edges were listed. -/
theorem consistent_deleteEdges {edges : List (UInt64 × Nat)} (consistent : Consistent cov s)
    (ran : (each edges (fun e => deleteEdge (o.sub e.2) e.1)).Exec rule s (.ok u) s')
    : Consistent cov s' := by
  refine exec_each_invariant (fun _ t => Consistent cov t) ?_ consistent ran
  rintro ⟨e, i⟩ rest mid after _ before step
  exact consistent_deleteEdge before step

theorem consistent_detachDeleteNode (consistent : Consistent cov s)
    (ran : (detachDeleteNode o id).Exec .exact s (.ok u) s')
    : Consistent cov s' := by
  obtain ⟨_, _, mid, _, _, _, _, _, _, detached, deleted⟩ := exec_detachDeleteNode ran
  exact consistent_deleteNode (consistent_deleteEdges consistent detached) deleted

end Intreccio.Graph
